import MatchLang.Proofs.Value.Sound

/-! Equality of values. On numbers it is that of floating-point numbers, to which NaN is not equal; so it is
symmetric and transitive on all values, and a value is equal to itself unless there is a NaN in it. -/

namespace MatchLang

section

open Float.Model (UnpackedFloat)

/-- What it takes for two numbers taken apart to be equal. The two zeros are. -/
inductive SameUnpacked : UnpackedFloat → UnpackedFloat → Prop where
  | infinity (sign) : SameUnpacked (.infinity sign) (.infinity sign)
  | zero (sign sign') : SameUnpacked (.zero sign) (.zero sign')
  | finite (sign mantissa exponent h) :
    SameUnpacked (.finite sign mantissa exponent h) (.finite sign mantissa exponent h)

theorem SameUnpacked.symm {u w : UnpackedFloat} (h : SameUnpacked u w) : SameUnpacked w u := by
  cases h <;> constructor

theorem SameUnpacked.trans {u w x : UnpackedFloat} (h : SameUnpacked u w) (h' : SameUnpacked w x) :
    SameUnpacked u x := by
  cases h <;> cases h' <;> constructor

theorem sameFinite {s : UnpackedFloat.Sign} {m m' : Nat} {e e' : Int} {h : 0 < m} {h' : 0 < m'}
    (hc : (compare e e').then (compare m m') = .eq) : SameUnpacked (.finite s m e h) (.finite s m' e' h') := by
  obtain ⟨he, hm⟩ := Ordering.then_eq_eq.mp hc
  obtain rfl := Std.LawfulEqOrd.eq_of_compare he
  obtain rfl := Std.LawfulEqOrd.eq_of_compare hm
  constructor

theorem sameUnpacked_iff {u w : UnpackedFloat} : u.beq w = true ↔ SameUnpacked u w := by
  constructor
  · intro h
    have he : u.compare w = some .eq := beq_iff_eq.mp (show (u.compare w == some .eq) = true from h)
    cases u with
    | notANumber => cases he
    | infinity s =>
      cases w with
      | infinity s' => cases s <;> cases s' <;> first | constructor | cases he
      | notANumber => cases s <;> cases he
      | zero s' => cases s <;> cases he
      | finite s' m e h => cases s <;> cases he
    | zero s =>
      cases w with
      | infinity s' => cases s' <;> cases he
      | notANumber => cases he
      | zero s' => constructor
      | finite s' m e h => cases s' <;> cases he
    | finite s m e hm =>
      cases w with
      | infinity s' => cases s <;> cases s' <;> cases he
      | notANumber => cases s <;> cases he
      | zero s' => cases s <;> cases he
      | finite s' m' e' hm' =>
        cases s <;> cases s'
        case positive.positive => exact sameFinite (Option.some.inj he)
        case negative.negative => exact sameFinite (Ordering.swap_eq_eq.mp (Option.some.inj he))
        all_goals cases he
  · intro h
    cases h with
    | infinity s => cases s <;> rfl
    | zero => rfl
    | finite s m e h =>
      have hc : (compare e e).then (compare m m) = .eq := by simp
      show (UnpackedFloat.compare _ _ == some .eq) = true
      refine beq_iff_eq.mpr ?_
      cases s
      case positive => exact congrArg some hc
      case negative => exact congrArg some (Ordering.swap_eq_eq.mpr hc)

theorem float_beq_iff {x y : Float} :
    (x == y) = true ↔ SameUnpacked x.toModel.unpack y.toModel.unpack :=
  sameUnpacked_iff

/-- Equality of numbers is symmetric. -/
theorem float_beq_comm (x y : Float) : (x == y) = (y == x) := by
  rw [Bool.eq_iff_iff, float_beq_iff, float_beq_iff]
  exact ⟨.symm, .symm⟩

theorem float_beq_trans {x y z : Float} (h : (x == y) = true) (h' : (y == z) = true) :
    (x == z) = true :=
  float_beq_iff.mpr ((float_beq_iff.mp h).trans (float_beq_iff.mp h'))

/-- A number is equal to itself unless it is NaN. -/
theorem float_beq_self {x : Float} : (x == x) = true ↔ x.isNaN = false := by
  rw [float_beq_iff]
  show _ ↔ x.toModel.unpack.isNaN = false
  cases x.toModel.unpack with
  | infinity s => exact ⟨fun _ => rfl, fun _ => .infinity s⟩
  | zero s => exact ⟨fun _ => rfl, fun _ => .zero s s⟩
  | finite s m e h => exact ⟨fun _ => rfl, fun _ => .finite s m e h⟩
  | notANumber => exact ⟨nofun, nofun⟩

end

/-- What it takes for two values to be equal. The arguments of a partial call do not count, nor does the code
of a function. -/
inductive Value.EqualTo : Value → Value → Prop where
  | number {x y : Float} (h : (x == y) = true) : EqualTo (.number x) (.number y)
  | text (s : String) : EqualTo (.text s) (.text s)
  | record {c d : Case} {fs gs : List Value} (hc : c.id = d.id) (hf : equalFields fs gs = true) :
    EqualTo (.record c fs) (.record d gs)
  | constant {c d : Case} (hc : c.id = d.id) : EqualTo (.constant c) (.constant d)
  | function {f g : Closure} (hf : f.id = g.id) : EqualTo (.function f) (.function g)
  | partialCall (id : Nat) (f g : Value) (args args' : List Value) :
    EqualTo (.partialCall id f args) (.partialCall id g args')
  | constructor {c d : Case} (hc : c.id = d.id) : EqualTo (.constructor c) (.constructor d)
  | native (f : Native) : EqualTo (.native f) (.native f)

/-- NaN occurs in a value, through the fields of cases. -/
inductive Value.HoldsNaN : Value → Prop where
  | number {x : Float} (h : x.isNaN = true) : HoldsNaN (.number x)
  | field {c : Case} {fields : List Value} {v : Value} (hv : v ∈ fields) (h : v.HoldsNaN) :
    HoldsNaN (.record c fields)

section

variable {a b c : Value} {vs ws xs : List Value}

theorem equal_iff : a.equal b = true ↔ a.EqualTo b := by
  constructor
  · intro h
    cases a <;> cases b <;> simp only [Value.equal, Bool.and_eq_true, beq_iff_eq, Bool.false_eq_true] at h
    case number x y => exact .number h
    case text s t => exact h ▸ .text s
    case record c fs d gs => exact .record h.1 h.2
    case constant c d => exact .constant h
    case function f g => exact .function h
    case partialCall id f args id' g args' => exact h ▸ .partialCall id f g args args'
    case constructor c d => exact .constructor h
    case native f g => exact h ▸ .native f
  · intro h
    cases h <;> simp_all [Value.equal]

theorem equalFields_cons {v w : Value} :
    equalFields (v :: vs) (w :: ws) = true ↔ v.equal w = true ∧ equalFields vs ws = true := by
  rw [equalFields, Bool.and_eq_true]

mutual

theorem Value.equal_symm : (a : Value) → {b : Value} → a.equal b = true → b.equal a = true
  | .record c fs, b, h => by
    cases equal_iff.mp h with
    | record hc hf => exact equal_iff.mpr (.record hc.symm (equalFields_symm fs hf))
  | .number x, b, h => by
    cases equal_iff.mp h with
    | number hx => exact equal_iff.mpr (.number (float_beq_comm .. ▸ hx))
  | .text s, b, h | .native s, b, h => by
    cases equal_iff.mp h
    exact h
  | .constant c, b, h | .constructor c, b, h | .function c, b, h => by
    cases equal_iff.mp h with
    | _ hc => exact equal_iff.mpr (by constructor; exact hc.symm)
  | .partialCall id f args, b, h => by
    cases equal_iff.mp h with
    | partialCall _ _ g _ args' => exact equal_iff.mpr (.partialCall id g f args' args)

theorem equalFields_symm : (vs : List Value) → {ws : List Value} → equalFields vs ws = true →
    equalFields ws vs = true
  | [], [], h => h
  | v :: vs, w :: ws, h => by
    obtain ⟨hv, hvs⟩ := equalFields_cons.mp h
    exact equalFields_cons.mpr ⟨v.equal_symm hv, equalFields_symm vs hvs⟩
  | [], _ :: _, h => by cases h
  | _ :: _, [], h => by cases h

end

mutual

theorem Value.equal_trans : (a : Value) → {b c : Value} → a.equal b = true → b.equal c = true →
    a.equal c = true
  | .record _ fs, b, c, h, h' => by
    cases equal_iff.mp h with
    | record hc hf =>
      cases equal_iff.mp h' with
      | record hc' hf' => exact equal_iff.mpr (.record (hc.trans hc') (equalFields_trans fs hf hf'))
  | .number _, b, c, h, h' => by
    cases equal_iff.mp h with
    | number hx =>
      cases equal_iff.mp h' with
      | number hy => exact equal_iff.mpr (.number (float_beq_trans hx hy))
  | .text _, b, c, h, h' | .native _, b, c, h, h' => by
    cases equal_iff.mp h
    exact h'
  | .constant _, b, c, h, h' | .constructor _, b, c, h, h' | .function _, b, c, h, h' => by
    cases equal_iff.mp h with
    | _ hc =>
      cases equal_iff.mp h' with
      | _ hc' => exact equal_iff.mpr (by constructor; exact hc.trans hc')
  | .partialCall id f args, b, c, h, h' => by
    cases equal_iff.mp h
    cases equal_iff.mp h' with
    | partialCall _ _ g _ args' => exact equal_iff.mpr (.partialCall id f g args args')

theorem equalFields_trans : (vs : List Value) → {ws xs : List Value} → equalFields vs ws = true →
    equalFields ws xs = true → equalFields vs xs = true
  | [], [], _, _, h' => h'
  | v :: vs, w :: ws, x :: xs, h, h' => by
    obtain ⟨hv, hvs⟩ := equalFields_cons.mp h
    obtain ⟨hw, hws⟩ := equalFields_cons.mp h'
    exact equalFields_cons.mpr ⟨v.equal_trans hv hw, equalFields_trans vs hvs hws⟩
  | [], _ :: _, _, h, _ => by cases h
  | _ :: _, [], _, h, _ => by cases h
  | _ :: _, _ :: _, [], _, h' => by cases h'

end

theorem Value.equal_comm (a b : Value) : a.equal b = b.equal a := by
  rw [Bool.eq_iff_iff]
  exact ⟨a.equal_symm, b.equal_symm⟩

mutual

theorem Value.equal_self : (a : Value) → (a.equal a = true ↔ ¬ a.HoldsNaN)
  | .record c fs => by
    have hself : (Value.record c fs).equal (.record c fs) = equalFields fs fs := by simp [Value.equal]
    rw [hself, equalFields_self fs]
    constructor
    · rintro h (_ | ⟨hv, hn⟩)
      exact h _ hv hn
    · exact fun h v hv hn => h (.field hv hn)
  | .number x => by
    show (x == x) = true ↔ _
    rw [float_beq_self]
    constructor
    · rintro h ⟨hn⟩
      rw [h] at hn
      cases hn
    · exact fun h => Bool.eq_false_iff.mpr fun hn => h (.number hn)
  | .text s => ⟨fun _ => nofun, fun _ => equal_iff.mpr (.text s)⟩
  | .constant c => ⟨fun _ => nofun, fun _ => equal_iff.mpr (.constant rfl)⟩
  | .function f => ⟨fun _ => nofun, fun _ => equal_iff.mpr (.function rfl)⟩
  | .partialCall id f args => ⟨fun _ => nofun, fun _ => equal_iff.mpr (.partialCall id f f args args)⟩
  | .constructor c => ⟨fun _ => nofun, fun _ => equal_iff.mpr (.constructor rfl)⟩
  | .native f => ⟨fun _ => nofun, fun _ => equal_iff.mpr (.native f)⟩

theorem equalFields_self : (vs : List Value) →
    (equalFields vs vs = true ↔ ∀ v ∈ vs, ¬ v.HoldsNaN)
  | [] => ⟨fun _ => nofun, fun _ => rfl⟩
  | v :: vs => by
    rw [equalFields_cons, v.equal_self, equalFields_self vs, List.forall_mem_cons]

end

theorem equalFields_length : (vs : List Value) → {ws : List Value} → equalFields vs ws = true →
    vs.length = ws.length
  | [], [], _ => rfl
  | _ :: vs, _ :: _, h => congrArg (· + 1) (equalFields_length vs (equalFields_cons.mp h).2)
  | [], _ :: _, h => by cases h
  | _ :: _, [], h => by cases h

/-- Equal values are built by the same case, if by one at all. -/
theorem Value.EqualTo.case_id (h : a.EqualTo b) : a.case?.map (·.id) = b.case?.map (·.id) := by
  cases h with
  | record hc => exact congrArg some hc
  | constant hc => exact congrArg some hc
  | _ => rfl

end

end MatchLang
