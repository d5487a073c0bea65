import Mathlib.Data.List.Forall2
import MatchLang.Machine.NativeCall
import MatchLang.Proofs.Value.Every

/-! Values that differ in their numbers alone. Cases, functions and partial calls are told apart by the numbers
they were given; which numbers these are has no effect on anything that is done with them, as long as the same
ones are the same. -/

namespace MatchLang

/-- Which number on the one side stands for which on the other. -/
abbrev Numbering := Nat → Nat → Prop

/-- Numbers before `n` stand for numbers before `n'`, no two of them for the same, and the built-in cases have
the same numbers on both sides. -/
structure Numbering.Fits (ρ : Numbering) (n n' : Nat) : Prop where
  lt : ∀ i j, ρ i j → i < n ∧ j < n'
  iff : ∀ i j i' j', ρ i j → ρ i' j' → (i = i' ↔ j = j')
  builtin : ∀ i, i < Builtins.count → ρ i i

/-- With the next `k` numbers on both sides. -/
def Numbering.extend (ρ : Numbering) (n n' k : Nat) : Numbering :=
  fun i j => ρ i j ∨ ∃ t < k, i = n + t ∧ j = n' + t

structure Case.Like (ρ : Numbering) (c d : Case) : Prop where
  id : ρ c.id d.id
  same : { d with id := c.id } = c

/-- The code is the same, and of the kind that is admitted. -/
structure Closure.Like (ρ : Numbering) (A : Code → Prop) (c d : Closure) : Prop where
  id : ρ c.id d.id
  same : { d with id := c.id } = c
  admitted : A c.code

/-- The same values but for their numbers, built as their cases and callees say. -/
inductive Value.Like (ρ : Numbering) (A : Code → Prop) : Value → Value → Prop where
  | number (x : Float) : Like ρ A (.number x) (.number x)
  | text (s : String) : Like ρ A (.text s) (.text s)
  | record {c d vs ws} : c.Like ρ d → 0 < c.arity → vs.length = c.arity →
    List.Forall₂ (Like ρ A) vs ws → Like ρ A (.record c vs) (.record d ws)
  | constant {c d} : c.Like ρ d → c.arity = 0 → Like ρ A (.constant c) (.constant d)
  | function {c d} : c.Like ρ A d → Like ρ A (.function c) (.function d)
  | partialCall {i j f g vs ws n} : ρ i j → Like ρ A f g → List.Forall₂ (Like ρ A) vs ws →
    f.arity? = some n → vs.length < n → Like ρ A (.partialCall i f vs) (.partialCall j g ws)
  | constructor {c d} : c.Like ρ d → 0 < c.arity → Like ρ A (.constructor c) (.constructor d)
  | native (f : Native) : Like ρ A (.native f) (.native f)

abbrev AllLike (ρ : Numbering) (A : Code → Prop) : List Value → List Value → Prop :=
  List.Forall₂ (Value.Like ρ A)

inductive DataType.Like (ρ : Numbering) : DataType → DataType → Prop where
  | number : Like ρ .number .number
  | text : Like ρ .text .text
  | function : Like ρ .function .function
  | family {name cs ds} : List.Forall₂ (Case.Like ρ) cs ds → Like ρ (.family name cs) (.family name ds)
  | case {c d} : c.Like ρ d → Like ρ (.case c) (.case d)

/-- Both come to something, and these are related, or to the same fault. -/
inductive Concord {α β : Type} (r : α → β → Prop) : Except Fault α → Except Fault β → Prop where
  | ok {a b} : r a b → Concord r (.ok a) (.ok b)
  | error (f : Fault) : Concord r (.error f) (.error f)

theorem Concord.split {α β : Type} {r : α → β → Prop} {x : Except Fault α} {y : Except Fault β}
    (h : Concord r x y) :
    (∃ a b, x = .ok a ∧ y = .ok b ∧ r a b) ∨ ∃ f, x = .error f ∧ y = .error f := by
  cases h with
  | ok h => exact .inl ⟨_, _, rfl, rfl, h⟩
  | error f => exact .inr ⟨f, rfl, rfl⟩

theorem Concord.map {α β γ δ : Type} {r : α → β → Prop} {s : γ → δ → Prop} {x : Except Fault α}
    {y : Except Fault β} {g : α → γ} {g' : β → δ} (h : Concord r x y)
    (hg : ∀ a b, r a b → s (g a) (g' b)) : Concord s (x.map g) (y.map g') := by
  cases h with
  | ok h => exact .ok (hg _ _ h)
  | error f => exact .error f

/-- The same types under all paths. -/
def TypesAgree (ρ : Numbering) (find find' : List String → Except Fault DataType) : Prop :=
  ∀ path, Concord (DataType.Like ρ) (find path) (find' path)

section

variable {ρ ρ' : Numbering} {n n' k i j i' j' : Nat}

theorem Numbering.le_extend (h : ρ i j) : ρ.extend n n' k i j :=
  .inl h

theorem Numbering.extend_next (ρ : Numbering) (n n' : Nat) : ρ.extend n n' 1 n n' :=
  .inr ⟨0, Nat.one_pos, rfl, rfl⟩

namespace Numbering.Fits

theorem extend (h : ρ.Fits n n') (k : Nat) : (ρ.extend n n' k).Fits (n + k) (n' + k) where
  lt i j hij := by
    rcases hij with hij | ⟨t, ht, rfl, rfl⟩
    · have hlt := h.lt i j hij
      omega
    · omega
  iff i j i' j' hij hij' := by
    rcases hij with hij | ⟨t, ht, rfl, rfl⟩ <;> rcases hij' with hij' | ⟨t', ht', rfl, rfl⟩
    · exact h.iff i j i' j' hij hij'
    · have hlt := h.lt i j hij
      omega
    · have hlt := h.lt i' j' hij'
      omega
    · omega
  builtin i hi := .inl (h.builtin i hi)

theorem beq_eq (h : ρ.Fits n n') (hij : ρ i j) (hij' : ρ i' j') : (i == i') = (j == j') := by
  have hiff := h.iff i j i' j' hij hij'
  by_cases hi : i = i'
  · simp [hi, hiff.mp hi]
  · simp [hi, mt hiff.mpr hi]

theorem builtin_beq (h : ρ.Fits n n') (hij : ρ i j) (hk : k < Builtins.count) :
    (i == k) = (j == k) :=
  h.beq_eq hij (h.builtin k hk)

end Numbering.Fits

end

section

variable {ρ ρ' : Numbering} {A : Code → Prop} {c d : Case}

theorem Case.Like.mono (hρ : ∀ i j, ρ i j → ρ' i j) (h : c.Like ρ d) : c.Like ρ' d :=
  ⟨hρ _ _ h.id, h.same⟩

theorem Case.Like.name (h : c.Like ρ d) : c.name = d.name := by
  rw [← h.same]

theorem Case.Like.arity (h : c.Like ρ d) : c.arity = d.arity := by
  rw [← h.same]

mutual

theorem Value.Like.mono (hρ : ∀ i j, ρ i j → ρ' i j) :
    (v : Value) → {w : Value} → v.Like ρ A w → v.Like ρ' A w
  | .number x, _, .number _ => .number x
  | .text s, _, .text _ => .text s
  | .record _ vs, _, .record hc ha hl hvs => .record (hc.mono hρ) ha hl (AllLike.mono hρ vs hvs)
  | .constant _, _, .constant hc ha => .constant (hc.mono hρ) ha
  | .function _, _, .function hc => .function ⟨hρ _ _ hc.id, hc.same, hc.admitted⟩
  | .partialCall _ f vs, _, .partialCall hi hf hvs hn hl =>
    .partialCall (hρ _ _ hi) (Value.Like.mono hρ f hf) (AllLike.mono hρ vs hvs) hn hl
  | .constructor _, _, .constructor hc ha => .constructor (hc.mono hρ) ha
  | .native f, _, .native _ => .native f

theorem AllLike.mono (hρ : ∀ i j, ρ i j → ρ' i j) :
    (vs : List Value) → {ws : List Value} → AllLike ρ A vs ws → AllLike ρ' A vs ws
  | [], _, .nil => .nil
  | v :: vs, _, .cons h hs => .cons (Value.Like.mono hρ v h) (AllLike.mono hρ vs hs)

end

theorem DataType.Like.mono {t u : DataType} (hρ : ∀ i j, ρ i j → ρ' i j) (h : t.Like ρ u) :
    t.Like ρ' u := by
  cases h with
  | number => exact .number
  | text => exact .text
  | function => exact .function
  | family hcs => exact .family (hcs.imp fun _ _ => Case.Like.mono hρ)
  | case hc => exact .case (hc.mono hρ)

mutual

theorem Value.Like.writeInner_eq :
    (v : Value) → {w : Value} → v.Like ρ A w → v.writeInner = w.writeInner
  | .number _, _, .number _ => rfl
  | .text _, _, .text _ => rfl
  | .record _ vs, _, .record hc _ _ hvs => by
    funext b
    rw [Value.writeInner, Value.writeInner, AllLike.writeFields_eq vs hvs, ← hc.same]
  | .constant _, _, .constant hc _ => by
    funext b
    rw [Value.writeInner, Value.writeInner, ← hc.same]
  | .function _, _, .function hc => by
    funext b
    rw [Value.writeInner, Value.writeInner, ← hc.same]
    rfl
  | .partialCall _ f _, _, .partialCall _ hf _ _ _ => by
    funext b
    rw [Value.writeInner, Value.writeInner, Value.Like.writeInner_eq f hf]
  | .constructor _, _, .constructor hc _ => by
    funext b
    rw [Value.writeInner, Value.writeInner, ← hc.same]
  | .native _, _, .native _ => rfl

theorem AllLike.writeFields_eq :
    (vs : List Value) → {ws : List Value} → AllLike ρ A vs ws → writeFields vs = writeFields ws
  | [], _, .nil => rfl
  | v :: vs, _, .cons h hs => by
    funext b
    rw [writeFields, writeFields, AllLike.writeFields_eq vs hs, Value.Like.writeInner_eq v h]

end

end

namespace Value.Like

variable {ρ : Numbering} {A : Code → Prop} {v v' w w' : Value} {t t' : DataType} {n n' : Nat}

theorem display_eq (h : v.Like ρ A w) : v.display = w.display := by
  have hi : v.innerText = w.innerText := congrFun (writeInner_eq v h) ""
  cases h with
  | text s => rfl
  | _ => exact hi

theorem typeName_eq (h : v.Like ρ A w) : v.typeName = w.typeName := by
  cases h with
  | record hc | constant hc => exact hc.name
  | _ => rfl

theorem arity?_eq : {v w : Value} → v.Like ρ A w → v.arity? = w.arity?
  | .partialCall _ _ _, _, .partialCall _ hf hvs _ _ => by
    rw [Value.arity?, Value.arity?, arity?_eq hf, hvs.length_eq]
  | .function _, _, .function h => by rw [Value.arity?, Value.arity?, ← h.same]
  | .constructor _, _, .constructor h _ => by rw [Value.arity?, Value.arity?, h.arity]
  | .number _, _, .number _ => rfl
  | .text _, _, .text _ => rfl
  | .record _ _, _, .record _ _ _ _ => rfl
  | .constant _, _, .constant _ _ => rfl
  | .native _, _, .native _ => rfl
termination_by structural v => v

theorem isCallable_eq (h : v.Like ρ A w) : v.isCallable = w.isCallable := by
  rw [isCallable, isCallable, h.arity?_eq]

mutual

theorem equal_eq (hf : ρ.Fits n n') : (v : Value) → {v' w w' : Value} → v.Like ρ A v' →
    w.Like ρ A w' → v.equal w = v'.equal w'
  | .number _, _, _, _, .number _, hw => by cases hw <;> rfl
  | .text _, _, _, _, .text _, hw => by cases hw <;> rfl
  | .native _, _, _, _, .native _, hw => by cases hw <;> rfl
  | .record _ vs, _, _, _, .record hc _ _ hvs, hw => by
    cases hw with
    | record hd _ _ hws =>
      rw [Value.equal, Value.equal, hf.beq_eq hc.id hd.id, equalFields_eq hf vs hvs hws]
    | _ => rfl
  | .constant _, _, _, _, .constant hc _, hw => by
    cases hw with
    | constant hd _ => rw [Value.equal, Value.equal, hf.beq_eq hc.id hd.id]
    | _ => rfl
  | .function _, _, _, _, .function hc, hw => by
    cases hw with
    | function hd => rw [Value.equal, Value.equal, hf.beq_eq hc.id hd.id]
    | _ => rfl
  | .partialCall _ _ _, _, _, _, .partialCall hi _ _ _ _, hw => by
    cases hw with
    | partialCall hj _ _ _ _ => rw [Value.equal, Value.equal, hf.beq_eq hi hj]
    | _ => rfl
  | .constructor _, _, _, _, .constructor hc _, hw => by
    cases hw with
    | constructor hd _ => rw [Value.equal, Value.equal, hf.beq_eq hc.id hd.id]
    | _ => rfl

theorem equalFields_eq (hf : ρ.Fits n n') : (vs : List Value) → {vs' ws ws' : List Value} →
    AllLike ρ A vs vs' → AllLike ρ A ws ws' → equalFields vs ws = equalFields vs' ws'
  | [], _, _, _, .nil, hws => by cases hws <;> rfl
  | v :: vs, _, _, _, .cons hv hvs, hws => by
    cases hws with
    | nil => rfl
    | cons hw hws => rw [equalFields, equalFields, equal_eq hf v hv hw, equalFields_eq hf vs hvs hws]

end

theorem isUnit_eq (hf : ρ.Fits n n') (h : v.Like ρ A w) : builtins.isUnit v = builtins.isUnit w := by
  cases h with
  | constant hc _ => exact hf.builtin_beq hc.id (by decide)
  | _ => rfl

theorem isEmptyList_eq (hf : ρ.Fits n n') (h : v.Like ρ A w) :
    builtins.isEmptyList v = builtins.isEmptyList w := by
  cases h with
  | constant hc _ => exact hf.builtin_beq hc.id (by decide)
  | _ => rfl

theorem any_id_eq {cs ds : List Case} {c d : Case} (hf : ρ.Fits n n') (hc : c.Like ρ d)
    (h : List.Forall₂ (Case.Like ρ) cs ds) : cs.any (·.id == c.id) = ds.any (·.id == d.id) := by
  induction h with
  | nil => rfl
  | cons hcd _ ih => rw [List.any_cons, List.any_cons, ih, hf.beq_eq hcd.id hc.id]

theorem admits_eq (hf : ρ.Fits n n') (ht : t.Like ρ t') (h : v.Like ρ A v') :
    t.admits v = t'.admits v' := by
  cases ht with
  | number | text => cases h <;> rfl
  | function => exact h.isCallable_eq
  | family hcs =>
    cases h with
    | record hc | constant hc => exact any_id_eq hf hc hcs
    | _ => rfl
  | case hd =>
    cases h with
    | record hc | constant hc => exact hf.beq_eq hc.id hd.id
    | _ => rfl

end Value.Like

section

variable {ρ : Numbering} {A : Code → Prop} {v v' : Value} {vs vs' os os' : List Value}
  {t t' : DataType} {n n' parts : Nat} {find find' : List String → Except Fault DataType}

theorem DataType.Like.name_eq (h : t.Like ρ t') : t.name = t'.name := by
  cases h with
  | case hc => exact hc.name
  | _ => rfl

mutual

theorem Shape.accepts_eq (hf : ρ.Fits n n') (ht : TypesAgree ρ find find') :
    (s : Shape) → {v v' : Value} → v.Like ρ A v' → s.accepts find v = s.accepts find' v'
  | .any, _, _, _ => rfl
  | .number _, _, _, h => by cases h <;> rfl
  | .text _, _, _, h => by cases h <;> rfl
  | .emptyList, _, _, h => congrArg Except.ok (h.isEmptyList_eq hf)
  | .unit, _, _, h => congrArg Except.ok (h.isUnit_eq hf)
  | .type path inners, v, v', h => by
    have hone : ∀ {t t' : DataType}, t.Like ρ t' →
        (match inners with
          | [inner] => if t.admits v then inner.accepts find v else .ok false
          | _ => .ok false) =
        (match inners with
          | [inner] => if t'.admits v' then inner.accepts find' v' else .ok false
          | _ => .ok false) := by
      intro t t' ht'
      match inners with
      | [inner] => simp only [h.admits_eq hf ht', Shape.accepts_eq hf ht inner h]
      | [] | _ :: _ :: _ => rfl
    rw [Shape.accepts, Shape.accepts]
    have hp := ht path
    revert hp
    generalize find path = r
    generalize find' path = r'
    intro hp
    cases hp with
    | error f => rfl
    | ok hr =>
      cases hr with
      | number => exact hone .number
      | text => exact hone .text
      | function => exact hone .function
      | family hcs => exact hone (.family hcs)
      | case hc =>
        cases h with
        | constant hd _ => exact congrArg Except.ok (hf.beq_eq hd.id hc.id)
        | record hd _ _ hvs =>
          simp only [hf.beq_eq hd.id hc.id, hvs.length_eq, acceptsAll_eq hf ht inners hvs]
        | _ => rfl

theorem acceptsAll_eq (hf : ρ.Fits n n') (ht : TypesAgree ρ find find') :
    (ss : List Shape) → {vs vs' : List Value} → AllLike ρ A vs vs' →
      acceptsAll find ss vs = acceptsAll find' ss vs'
  | [], _, _, h => by cases h <;> rfl
  | s :: ss, _, _, h => by
    cases h with
    | nil => rfl
    | cons hv hvs => rw [acceptsAll, acceptsAll, Shape.accepts_eq hf ht s hv, acceptsAll_eq hf ht ss hvs]

end

theorem decompose_agree (hf : ρ.Fits n n') (ht : t.Like ρ t') (ho : AllLike ρ A os os') :
    Concord (AllLike ρ A) (decompose t parts os) (decompose t' parts os') := by
  have hwhole : ∀ {t t' : DataType}, t.Like ρ t' → (∀ c, t ≠ .case c) → (∀ c, t' ≠ .case c) →
      Concord (AllLike ρ A) (decompose t parts os) (decompose t' parts os') := by
    intro t t' ht hc hc'
    cases ho with
    | nil =>
      have hnil : ∀ {u : DataType}, (∀ c, u ≠ .case c) → decompose u parts [] =
          if parts ≠ 1 then .error (.wrongParts u.name parts) else .error .stackUnderflow := by
        intro u hu
        cases u with
        | case c => exact absurd rfl (hu c)
        | _ => rfl
      rw [hnil hc, hnil hc', ht.name_eq]
      split
      · exact .error _
      · exact .error _
    | cons hv hrest =>
      rw [decompose_whole hc, decompose_whole hc', ht.name_eq, hv.admits_eq hf ht, hv.typeName_eq]
      split
      · exact .error _
      · split
        · exact .ok (.cons hv hrest)
        · exact .error _
  cases ht with
  | number => exact hwhole .number nofun nofun
  | text => exact hwhole .text nofun nofun
  | function => exact hwhole .function nofun nofun
  | family hcs => exact hwhole (.family hcs) nofun nofun
  | case hc =>
    unfold decompose
    simp only [← hc.arity, ← hc.name]
    split
    · exact .error _
    · cases ho with
      | nil => exact .error _
      | cons hv hrest =>
        simp only [← hv.typeName_eq]
        cases hv with
        | record hd _ _ hvs =>
          simp only [hf.beq_eq hd.id hc.id]
          split
          · exact .ok (List.rel_append hvs hrest)
          · exact .error _
        | constant hd _ =>
          simp only [hf.beq_eq hd.id hc.id]
          split
          · exact .ok hrest
          · exact .error _
        | _ => exact .error _

theorem AllLike.take (n : Nat) (h : AllLike ρ A os os') :
    (takeOperands n os = none ∧ takeOperands n os' = none) ∨
      ∃ args rest args' rest', takeOperands n os = some (args, rest) ∧
        takeOperands n os' = some (args', rest') ∧ AllLike ρ A args args' ∧ AllLike ρ A rest rest' := by
  induction n generalizing os os' with
  | zero => exact .inr ⟨[], os, [], os', rfl, rfl, .nil, h⟩
  | succ n ih =>
    cases h with
    | nil => exact .inl ⟨rfl, rfl⟩
    | cons hv hs =>
      simp only [takeOperands]
      obtain ⟨h₁, h₂⟩ | ⟨args, rest, args', rest', h₁, h₂, ha, hr⟩ := ih hs
      · exact .inl ⟨by rw [h₁]; rfl, by rw [h₂]; rfl⟩
      · exact .inr ⟨_, _, _, _, by rw [h₁]; rfl, by rw [h₂]; rfl, .cons hv ha, hr⟩

/-- The same application but for the numbers. -/
inductive Application.Like (ρ : Numbering) (A : Code → Prop) : Application → Application → Prop where
  | enter {c d os os'} : c.Like ρ A d → AllLike ρ A os os' → Like ρ A (.enter c os) (.enter d os')
  | build {c d fields fields' rest rest'} : c.Like ρ d → 0 < c.arity → fields.length = c.arity →
    AllLike ρ A fields fields' → AllLike ρ A rest rest' →
    Like ρ A (.build c fields rest) (.build d fields' rest')
  | compute {args args' rest rest'} (f : Native) : AllLike ρ A args args' → AllLike ρ A rest rest' →
    Like ρ A (.compute f args rest) (.compute f args' rest')
  | fault (f : Fault) : Like ρ A (.fault f) (.fault f)

theorem applyFull_like : {v w : Value} → {os os' : List Value} → v.Like ρ A w → AllLike ρ A os os' →
    (applyFull v os).Like ρ A (applyFull w os')
  | .function c, _, _, _, .function hc, ho => .enter hc ho
  | .partialCall _ _ vs, _, _, _, .partialCall _ hf hvs _ _, ho => by
    rw [applyFull, applyFull]
    exact applyFull_like hf (List.rel_append hvs ho)
  | .constructor c, _, os, os', .constructor hc ha, ho => by
    rw [applyFull, applyFull, ← hc.arity]
    obtain ⟨h₁, h₂⟩ | ⟨args, rest, args', rest', h₁, h₂, hargs, hr⟩ := ho.take c.arity
    · rw [h₁, h₂]
      exact .fault _
    · rw [h₁, h₂]
      exact .build hc ha (takeOperands_eq_some h₁).2 hargs hr
  | .native f, _, os, os', .native _, ho => by
    rw [applyFull, applyFull]
    obtain ⟨h₁, h₂⟩ | ⟨args, rest, args', rest', h₁, h₂, hargs, hr⟩ := ho.take f.arity
    · rw [h₁, h₂]
      exact .fault _
    · rw [h₁, h₂]
      exact .compute f hargs hr
  | .number _, _, _, _, .number _, _ => .fault _
  | .text _, _, _, _, .text _, _ => .fault _
  | .record _ _, _, _, _, .record hc ha hl hvs, _ => by
    have hd := Value.Like.display_eq (.record hc ha hl hvs)
    simp only [applyFull, hd]
    exact .fault _
  | .constant _, _, _, _, .constant hc ha, _ => by
    have hd := Value.Like.display_eq (.constant hc ha : Value.Like ρ A _ _)
    simp only [applyFull, hd]
    exact .fault _
termination_by structural v => v

end

/-! What the native functions compute -/

namespace Native

variable {ρ : Numbering} {A : Code → Prop} {n n' : Nat} {f : Native} {args args' : List Value}

theorem boolValue_like (hf : ρ.Fits n n') (p : Bool) :
    (builtins.boolValue p).Like ρ A (builtins.boolValue p) := by
  cases p with
  | true => exact .constant ⟨hf.builtin 3 (by decide), rfl⟩ rfl
  | false => exact .constant ⟨hf.builtin 4 (by decide), rfl⟩ rfl

theorem unitValue_like (hf : ρ.Fits n n') : builtins.unitValue.Like ρ A builtins.unitValue :=
  .constant ⟨hf.builtin 0 (by decide), rfl⟩ rfl

theorem agree_of_pair {g : List Value → Except Fault Value}
    (hg : ∀ args, args.length ≠ 2 → g args = .error .stackUnderflow)
    (hp : ∀ v w v' w', v.Like ρ A v' → w.Like ρ A w' → Concord (Value.Like ρ A) (g [v, w]) (g [v', w']))
    (h : AllLike ρ A args args') : Concord (Value.Like ρ A) (g args) (g args') := by
  by_cases hl : args.length = 2
  · obtain ⟨v, w, rfl⟩ := List.length_eq_two.mp hl
    obtain ⟨v', _, hv, hs, rfl⟩ := List.forall₂_cons_left_iff.mp h
    obtain ⟨w', _, hw, ⟨⟩, rfl⟩ := List.forall₂_cons_left_iff.mp hs
    exact hp v w v' w' hv hw
  · rw [hg args hl, hg args' (h.length_eq ▸ hl)]
    exact .error _

theorem agree_of_one {g : List Value → Except Fault Value}
    (hg : ∀ args, args.length ≠ 1 → g args = .error .stackUnderflow)
    (ho : ∀ v v', v.Like ρ A v' → Concord (Value.Like ρ A) (g [v]) (g [v']))
    (h : AllLike ρ A args args') : Concord (Value.Like ρ A) (g args) (g args') := by
  by_cases hl : args.length = 1
  · obtain ⟨v, rfl⟩ := List.length_eq_one_iff.mp hl
    obtain ⟨v', _, hv, ⟨⟩, rfl⟩ := List.forall₂_cons_left_iff.mp h
    exact ho v v' hv
  · rw [hg args hl, hg args' (h.length_eq ▸ hl)]
    exact .error _

theorem twoNumbers_agree {op : Float → Float → Float} (h : AllLike ρ A args args') :
    Concord (Value.Like ρ A) (f.twoNumbers op args) (f.twoNumbers op args') := by
  refine agree_of_pair (fun args hl => ?_) (fun v w v' w' hv hw => ?_) h
  · unfold twoNumbers
    split <;> simp_all
  · have hvt := hv.typeName_eq
    have hwt := hw.typeName_eq
    cases hv with
    | number x =>
      cases hw with
      | number y => exact .ok (.number _)
      | _ =>
        simp only [twoNumbers, hwt]
        exact .error _
    | _ =>
      simp only [twoNumbers, hvt]
      exact .error _

theorem joinTexts_agree (h : AllLike ρ A args args') :
    Concord (Value.Like ρ A) (f.joinTexts args) (f.joinTexts args') := by
  refine agree_of_pair (fun args hl => ?_) (fun v w v' w' hv hw => ?_) h
  · unfold joinTexts
    split <;> simp_all
  · have hvt := hv.typeName_eq
    have hwt := hw.typeName_eq
    cases hv with
    | text s =>
      cases hw with
      | text t => exact .ok (.text _)
      | _ =>
        simp only [joinTexts, hwt]
        exact .error _
    | _ =>
      simp only [joinTexts, hvt]
      exact .error _

theorem compareEqual_agree {keep : Bool → Bool} (hf : ρ.Fits n n') (h : AllLike ρ A args args') :
    Concord (Value.Like ρ A) (compareEqual keep args) (compareEqual keep args') := by
  refine agree_of_pair (fun args hl => ?_) (fun v w v' w' hv hw => ?_) h
  · unfold compareEqual
    split <;> simp_all
  · rw [compareEqual, compareEqual, hv.equal_eq hf _ hw]
    exact .ok (boolValue_like hf _)

theorem compareOrder_agree {keep : Ordering → Bool} (hf : ρ.Fits n n')
    (h : AllLike ρ A args args') :
    Concord (Value.Like ρ A) (f.compareOrder keep args) (f.compareOrder keep args') := by
  refine agree_of_pair (fun args hl => ?_) (fun v w v' w' hv hw => ?_) h
  · unfold compareOrder
    split <;> simp_all
  · have hvt := hv.typeName_eq
    have hwt := hw.typeName_eq
    cases hv with
    | number x =>
      cases hw with
      | number y =>
        simp only [compareOrder]
        split
        · exact .ok (boolValue_like hf _)
        · exact .error _
      | _ =>
        simp only [compareOrder, hwt]
        exact .error _
    | text s =>
      cases hw with
      | text t => exact .ok (boolValue_like hf _)
      | _ =>
        simp only [compareOrder, hwt]
        exact .error _
    | _ =>
      simp only [compareOrder, hvt, hwt]
      exact .error _

theorem readNumber_agree (h : AllLike ρ A args args') :
    Concord (Value.Like ρ A) (f.readNumber args) (f.readNumber args') := by
  refine agree_of_one (fun args hl => ?_) (fun v v' hv => ?_) h
  · unfold readNumber
    split <;> simp_all
  · have hvt := hv.typeName_eq
    cases hv with
    | number x => exact .ok (.number x)
    | text s =>
      simp only [readNumber]
      split
      · exact .ok (.number _)
      · exact .error _
    | _ =>
      simp only [readNumber, hvt]
      exact .error _

theorem compute_agree (hf : ρ.Fits n n') (h : AllLike ρ A args args') :
    Concord (Value.Like ρ A) (f.compute args) (f.compute args') := by
  cases f with
  | add | subtract | multiply | divide | remainder => exact twoNumbers_agree h
  | concat => exact joinTexts_agree h
  | equal | different => exact compareEqual_agree hf h
  | less | lessEqual | greater | greaterEqual => exact compareOrder_agree hf h
  | printLine | readLine => exact .error _
  | toNumber => exact readNumber_agree h
  | toText =>
    refine agree_of_one (g := showValue) (fun args hl => ?_) (fun v v' hv => ?_) h
    · unfold showValue
      split <;> simp_all
    · rw [showValue, showValue, hv.display_eq]
      exact .ok (.text _)
  | raise =>
    refine agree_of_one (g := raiseValue) (fun args hl => ?_) (fun v v' hv => ?_) h
    · unfold raiseValue
      split <;> simp_all
    · rw [raiseValue, raiseValue, hv.display_eq]
      exact .error _

theorem run_agree (hf : ρ.Fits n n') (h : AllLike ρ A args args') (console : Console) :
    Concord (fun r r' => r.1.Like ρ A r'.1 ∧ r.2 = r'.2) (f.run args console) (f.run args' console) := by
  have hother : Concord (fun r r' => r.1.Like ρ A r'.1 ∧ r.2 = r'.2)
      ((f.compute args).map (·, console)) ((f.compute args').map (·, console)) :=
    (compute_agree hf h).map fun _ _ hr => ⟨hr, rfl⟩
  cases h with
  | nil => cases f <;> exact hother
  | cons hv hs =>
    cases hs with
    | cons _ _ => cases f <;> exact hother
    | nil =>
      cases f with
      | printLine =>
        rw [run, run, hv.display_eq]
        exact .ok ⟨unitValue_like hf, rfl⟩
      | readLine =>
        rw [run, run, hv.display_eq]
        split
        · exact .ok ⟨.text _, rfl⟩
        · exact .ok ⟨unitValue_like hf, rfl⟩
      | _ => exact hother

end Native

end MatchLang
