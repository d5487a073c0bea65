import MatchLang.Proofs.Machine.Action
import MatchLang.Proofs.Machine.Application

/-! What an instruction takes from the top of the operands does not depend on those below. Either it asks for
more operands than it is given, or it does with the others below the same as without them. -/

namespace MatchLang

def Setting.withOperands (s : Setting) (operands : List Value) : Setting :=
  { s with operands }

namespace Setting

variable {s : Setting} {os : List Value}

@[simp] theorem withOperands_store : (s.withOperands os).store = s.store := rfl

@[simp] theorem withOperands_operands : (s.withOperands os).operands = os := rfl

@[simp] theorem withOperands_closure : (s.withOperands os).closure = s.closure := rfl

@[simp] theorem withOperands_scope : (s.withOperands os).scope = s.scope := rfl

@[simp] theorem withOperands_home : (s.withOperands os).home = s.home := rfl

end Setting

/-- The same with some more operands below. -/
def Action.over (below : List Value) : Action → Action
  | .proceed σ os is => .proceed σ (os ++ below) is
  | .enter c os => .enter c (os ++ below)
  | .restart => .restart
  | .load file delivery => .load file delivery
  | .fail σ os f => .fail σ (os ++ below) f

def Application.over (below : List Value) : Application → Application
  | .enter c os => .enter c (os ++ below)
  | .build c fields rest => .build c fields (rest ++ below)
  | .compute f args rest => .compute f args (rest ++ below)
  | .fault f => .fault f

/-- An action that has run out of operands, or does the same over others. -/
def Action.LocalTo (below : List Value) (a b : Action) : Prop :=
  (∃ σ os, a = .fail σ os .stackUnderflow) ∨ b = a.over below

theorem Action.LocalTo.eq_over {below : List Value} {a b : Action} (h : a.LocalTo below b)
    (ha : ∀ σ os, a ≠ .fail σ os .stackUnderflow) : b = a.over below := by
  rcases h with ⟨σ, os, he⟩ | h
  · exact absurd he (ha σ os)
  · exact h

section

variable {s : Setting} {own below : List Value} {line n : Nat} {k : List Instr}

theorem takeOperands_over {args rest : List Value} (h : takeOperands n own = some (args, rest)) :
    takeOperands n (own ++ below) = some (args, rest ++ below) := by
  induction n generalizing own args with
  | zero =>
    cases h
    rfl
  | succ n ih =>
    cases own with
    | nil => cases h
    | cons v own =>
      obtain ⟨r, hr, he⟩ := Option.map_eq_some_iff.mp h
      cases he
      rw [List.cons_append, takeOperands, ih hr]
      rfl

theorem applyFull_over (below : List Value) : (callee : Value) → (own : List Value) →
    applyFull callee own = .fault .stackUnderflow ∨
      applyFull callee (own ++ below) = (applyFull callee own).over below
  | .function c, own => .inr rfl
  | .constructor c, own => by
    cases h : takeOperands c.arity own with
    | none =>
      left
      simp only [applyFull, h]
    | some r =>
      right
      simp only [applyFull, h, takeOperands_over h, Application.over]
  | .native f, own => by
    cases h : takeOperands f.arity own with
    | none =>
      left
      simp only [applyFull, h]
    | some r =>
      right
      simp only [applyFull, h, takeOperands_over h, Application.over]
  | .partialCall id callee args, own => by
    rw [applyFull, applyFull, ← List.append_assoc]
    exact applyFull_over below _ _
  | .number x, own => .inr rfl
  | .text t, own => .inr rfl
  | .record c fields, own => .inr rfl
  | .constant c, own => .inr rfl

theorem decompose_over (t : DataType) (parts : Nat) (own below : List Value) :
    decompose t parts own = .error .stackUnderflow ∨
      decompose t parts (own ++ below) = (decompose t parts own).map (· ++ below) := by
  cases own with
  | cons v own =>
    right
    have hmap : ∀ r : Except Fault (List Value),
        r.map (· ++ (own ++ below)) = (r.map (· ++ own)).map (· ++ below) := by
      intro r
      cases r with
      | ok vs => exact congrArg Except.ok (List.append_assoc vs own below).symm
      | error f => rfl
    rw [List.cons_append, decompose_cons, hmap, ← decompose_cons]
  | nil =>
    cases t with
    | case c =>
      by_cases hp : parts = c.arity
      · left
        simp [decompose, hp]
      · right
        simp [decompose, hp, Except.map]
    | _ =>
      by_cases hp : parts = 1
      · left
        simp [decompose, hp]
      · right
        simp [decompose, hp, Except.map]

namespace Setting

theorem refuse_local {f : Fault} :
    ((s.withOperands own).refuse f).LocalTo below ((s.withOperands (own ++ below)).refuse f) :=
  .inr rfl

theorem jump_local {label : Nat} :
    ((s.withOperands own).jump label).LocalTo below
      ((s.withOperands (own ++ below)).jump label) := by
  right
  simp only [jump, withOperands_closure]
  cases s.closure.code.from? label <;> rfl

theorem pop_local {next next' : Value → List Value → Action}
    (h : ∀ v os, own = v :: os → (next v os).LocalTo below (next' v (os ++ below))) :
    ((s.withOperands own).pop next).LocalTo below ((s.withOperands (own ++ below)).pop next') := by
  cases own with
  | nil => exact .inl ⟨s.store, [], rfl⟩
  | cons v os => exact h v os rfl

theorem test_local {shape : Shape} {next next' : List Value → Bool → Action}
    (h : ∀ os fits, (next os fits).LocalTo below (next' (os ++ below) fits)) :
    ((s.withOperands own).test shape next).LocalTo below
      ((s.withOperands (own ++ below)).test shape next') := by
  refine pop_local fun v os ho => ?_
  simp only [withOperands_home]
  cases shape.accepts s.home.findType v with
  | ok fits => exact h os fits
  | error f => exact refuse_local

theorem declare_local {σ : Store} {os : List Value} {r : Except Fault Namespace} :
    (s.declare σ os k r).LocalTo below (s.declare σ (os ++ below) k r) := by
  cases r <;> exact .inr rfl

theorem apply_local {callee : Value} {os : List Value} :
    ((s.withOperands own).apply callee os k).LocalTo below
      ((s.withOperands (own ++ below)).apply callee (os ++ below) k) := by
  unfold apply
  rcases applyFull_over below callee os with h | h
  · rw [h]
    exact .inl ⟨_, _, rfl⟩
  · rw [h]
    cases applyFull callee os with
    | enter c os => exact .inr rfl
    | build c fields rest => exact .inr rfl
    | fault f => exact refuse_local
    | compute f args rest =>
      simp only [Application.over, withOperands_store]
      cases f.run args s.store.console with
      | ok r => exact .inr rfl
      | error fault => exact refuse_local

theorem hold_local {callee : Value} {argc : Nat} {os : List Value} :
    ((s.withOperands own).hold callee argc os k).LocalTo below
      ((s.withOperands (own ++ below)).hold callee argc (os ++ below) k) := by
  unfold hold
  cases h : takeOperands argc os with
  | none => exact .inl ⟨_, _, rfl⟩
  | some r =>
    rw [takeOperands_over h]
    exact .inr rfl

theorem call_local {argc : Nat} :
    ((s.withOperands own).call argc k).LocalTo below
      ((s.withOperands (own ++ below)).call argc k) := by
  refine pop_local fun callee os _ => ?_
  cases callee.arity? with
  | none => exact refuse_local
  | some arity =>
    simp only
    split
    · exact apply_local
    · split
      · exact hold_local
      · exact refuse_local

end Setting

theorem Op.action_local (op : Op) :
    (op.action (s.withOperands own) line k).LocalTo below
      (op.action (s.withOperands (own ++ below)) line k) := by
  cases op with
  | nothing | loadNumber _ | loadText _ | loadFunction _ _ | importAll _ | importEntry _ _ =>
    exact .inr rfl
  | fail message => exact Setting.refuse_local
  | pop | duplicate | saveLocal _ => exact Setting.pop_local fun _ _ _ => .inr rfl
  | decompose path parts =>
    simp only [Op.action, Setting.withOperands_home, Setting.withOperands_operands]
    cases s.home.findType path with
    | error f => exact Setting.refuse_local
    | ok t =>
      simp only
      rcases decompose_over t parts own below with h | h
      · rw [h]
        exact .inl ⟨_, _, rfl⟩
      · rw [h]
        cases MatchLang.decompose t parts own with
        | ok os => exact .inr rfl
        | error f => exact Setting.refuse_local
  | jump label => exact Setting.jump_local
  | require shape =>
    refine Setting.test_local fun os fits => ?_
    cases fits <;> exact .inr rfl
  | jumpIf shape label =>
    refine Setting.test_local fun os fits => ?_
    cases fits with
    | true => exact Setting.jump_local (s := s)
    | false => exact .inr rfl
  | loadLocal slot =>
    simp only [Op.action, Setting.withOperands_store, Setting.withOperands_scope]
    cases s.store.lookup s.scope slot.id with
    | some v => exact .inr rfl
    | none => exact Setting.refuse_local
  | loadName path =>
    simp only [Op.action, Setting.withOperands_home]
    cases s.home.findValue path with
    | ok v => exact .inr rfl
    | error f => exact Setting.refuse_local
  | publish name path => exact Setting.pop_local fun _ _ _ => Setting.declare_local
  | call argc => exact Setting.call_local
  | tailCall argc =>
    have hrestart : ∀ os, s.closure.arity = argc →
        Op.action (s.withOperands os) line k (.tailCall argc) = .restart := fun os h => if_pos h
    have hrefuse : ∀ os, ¬ s.closure.arity = argc →
        Op.action (s.withOperands os) line k (.tailCall argc) =
          (s.withOperands os).refuse .partialTailCall := fun os h => if_neg h
    by_cases ha : s.closure.arity = argc
    · rw [hrestart _ ha, hrestart _ ha]
      exact .inr rfl
    · rw [hrefuse _ ha, hrefuse _ ha]
      exact Setting.refuse_local
  | makeNamespace path isPublic => exact Setting.declare_local
  | makeType name path cases => exact Setting.declare_local

end

end MatchLang
