import MatchLang.Proofs.Lists.Items
import MatchLang.Proofs.Machine.Action
import MatchLang.Proofs.Machine.Passes
import MatchLang.Proofs.Store.Hidden

/-! Items that come to a value without any function being called. An item that is no list does, and so does every
item as long as the value that is called `::` makes a case. The value then depends on the next number alone. -/

namespace MatchLang

/-- What items depend on where they are evaluated, with a case to put lists together. -/
structure Outlook where
  closure : Closure
  scope : Nat
  unit : Value
  empty : Value
  cons : Case

/-- What the case makes of two values, if it wants as many fields or more. -/
def Case.join (c : Case) (id : Nat) (v u : Value) : Value :=
  if c.arity = 2 then .record c [v, u] else .partialCall id (.constructor c) [v, u]

/-- How many numbers are given out for that. -/
def Case.joinSize (c : Case) : Nat :=
  if c.arity = 2 then 0 else 1

mutual

/-- How many numbers are given out while an item is evaluated. -/
def Item.size (c : Case) : Item → Nat
  | .literal _ _ => 0
  | .function _ _ _ => 1
  | .list items _ => itemsSize c items

def itemsSize (c : Case) : List Item → Nat
  | [] => 0
  | x :: xs => itemsSize c xs + x.size c + c.joinSize

end

mutual

/-- What an item comes to, if the next number is `id`. -/
def Item.value (o : Outlook) (id : Nat) : Item → Value
  | .literal (.number x) _ => .number x
  | .literal (.text s) _ => .text s
  | .literal .unit _ => o.unit
  | .literal .emptyList _ => o.empty
  | .function code arity line => .function (o.closure.inner id o.scope line code arity)
  | .list items _ => itemsValue o id items

def itemsValue (o : Outlook) (id : Nat) : List Item → Value
  | [] => o.empty
  | x :: xs =>
    o.cons.join (id + itemsSize o.cons xs + x.size o.cons) (x.value o (id + itemsSize o.cons xs))
      (itemsValue o id xs)

end

def Item.line : Item → Nat
  | .literal _ line => line
  | .function _ _ line => line
  | .list _ line => line

mutual

/-- Every function of an item has a property. -/
def Item.Every (P : Code → Nat → Prop) : Item → Prop
  | .literal _ _ => True
  | .function code arity _ => P code arity
  | .list items _ => EveryItem P items

def EveryItem (P : Code → Nat → Prop) : List Item → Prop
  | [] => True
  | x :: xs => x.Every P ∧ EveryItem P xs

end

/-- The names that items ask for have the values that they should. -/
structure Outlook.On (o : Outlook) (m : Machine) (σ : Store) : Prop where
  closure : m.frame.closure = o.closure
  scope : m.frame.scope = o.scope
  unit : (σ.root m.frame.closure.home).findValue [unitName] = .ok o.unit
  empty : (σ.root m.frame.closure.home).findValue [emptyName] = .ok o.empty

/-- The value that is called `::` is that of the case, and does not mind two values. -/
def Outlook.Conses (o : Outlook) (m : Machine) (σ : Store) : Prop :=
  (σ.root m.frame.closure.home).findValue [consName] = .ok (.constructor o.cons) ∧ 2 ≤ o.cons.arity

/-- The same outlook but for the numbers. -/
structure Outlook.Like (ρ : Numbering) (A : Code → Prop) (o o' : Outlook) : Prop where
  closure : o.closure.Like ρ A o'.closure
  scope : o.scope = o'.scope
  unit : o.unit.Like ρ A o'.unit
  empty : o.empty.Like ρ A o'.empty
  arity : o.cons.arity = o'.cons.arity

/-- Instructions that put something on the stack or call what is there. -/
def Op.Plain : Op → Prop
  | .loadNumber _ => True
  | .loadText _ => True
  | .loadName _ => True
  | .loadFunction _ _ => True
  | .call _ => True
  | _ => False

section

variable {host : Host} {o o' : Outlook} {m : Machine} {σ : Store} {os : List Value} {line line' n : Nat}
  {k : List Instr} {x : Item} {v v' u u' : Value} {c d : Case} {κ : Registry} {ρ : Numbering}
  {A : Code → Prop}

theorem Literal.op_plain (value : Literal) : value.op.Plain := by
  cases value <;> trivial

mutual

/-- What holds of instructions as long as they are plain, holds of all that the code of an item leads to. -/
theorem Item.every_of {Q : List Instr → Prop} {P : Code → Nat → Prop}
    (hf : ∀ line code arity k, Q (.mk line (.loadFunction code arity) :: k) → P code arity)
    (hq : ∀ line op k, Q (.mk line op :: k) → op.Plain → Q k) (x : Item) {k : List Instr}
    (h : Q (x.code k)) : x.Every P ∧ Q k := by
  match x with
  | .literal value line => exact ⟨trivial, hq _ _ _ h value.op_plain⟩
  | .function code arity line => exact ⟨hf _ _ _ _ h, hq _ _ _ h trivial⟩
  | .list items line => exact everyItem_of hf hq items (hq _ _ _ h trivial)
termination_by sizeOf x

theorem everyItem_of {Q : List Instr → Prop} {P : Code → Nat → Prop}
    (hf : ∀ line code arity k, Q (.mk line (.loadFunction code arity) :: k) → P code arity)
    (hq : ∀ line op k, Q (.mk line op :: k) → op.Plain → Q k) (xs : List Item) {line : Nat}
    {k : List Instr} (h : Q (frontsCode line xs k)) : EveryItem P xs ∧ Q k := by
  match xs with
  | [] => exact ⟨trivial, h⟩
  | x :: xs =>
    obtain ⟨hxs, h⟩ := everyItem_of hf hq xs h
    obtain ⟨hx, h⟩ := Item.every_of hf hq x h
    exact ⟨⟨hx, hxs⟩, hq _ _ _ (hq _ _ _ h trivial) trivial⟩
termination_by sizeOf xs

end

theorem Machine.reaches_loadName {path : List String}
    (h : (σ.root m.frame.closure.home).findValue path = .ok v) :
    (m.resume σ os line' (.mk line (.loadName path) :: k)).Reaches host (m.resume σ (v :: os) line k) := by
  refine .of_step ?_
  rw [Machine.step_resume, perform_loadName_ok h]

theorem Outlook.Conses.run (hc : o.Conses m σ) :
    (m.resume σ (v :: u :: os) line' (frontCode line k)).Reaches host
      (m.resume (σ.skip o.cons.joinSize) (o.cons.join σ.nextIdentity v u :: os) line k) := by
  obtain ⟨hf, ha⟩ := hc
  have hcall : (m.resume σ (.constructor o.cons :: v :: u :: os) line (.mk line (.call 2) :: k)).step host =
      if 2 = o.cons.arity then
        (m.resume σ (.constructor o.cons :: v :: u :: os) line k).apply host (.constructor o.cons)
          (v :: u :: os)
      else if 2 < o.cons.arity then
        .running (m.resume (σ.skip 1) (.partialCall σ.nextIdentity (.constructor o.cons) [v, u] :: os) line k)
      else .raised (m.resume σ (.constructor o.cons :: v :: u :: os) line k)
        (.tooManyArguments (Value.constructor o.cons).display) := rfl
  refine (Machine.reaches_loadName hf).trans (.of_step ?_)
  rw [hcall]
  unfold Case.join Case.joinSize
  by_cases h2 : o.cons.arity = 2
  · have ht : takeOperands o.cons.arity (v :: u :: os) = some ([v, u], os) := h2 ▸ rfl
    rw [if_pos h2.symm, if_pos h2, if_pos h2, Machine.apply, applyFull, ht]
    rfl
  · have hlt : 2 < o.cons.arity := by omega
    rw [if_neg (Ne.symm h2), if_pos hlt, if_neg h2, if_neg h2]

mutual

theorem Item.runs (host : Host) (x : Item) {σ : Store} (os : List Value) (line : Nat) (k : List Instr)
    (ho : o.On m σ) (hx : x.Flat ∨ o.Conses m σ) :
    (m.resume σ os line (x.code k)).Reaches host
      (m.resume (σ.skip (x.size o.cons)) (x.value o σ.nextIdentity :: os) x.line k) := by
  match x with
  | .literal (.number _) _ | .literal (.text _) _ => exact .of_step rfl
  | .literal .unit _ => exact Machine.reaches_loadName ho.unit
  | .literal .emptyList _ => exact Machine.reaches_loadName ho.empty
  | .function code arity line' =>
    have hstep : (m.resume σ os line (.mk line' (.loadFunction code arity) :: k)).step host =
        .running (m.resume (σ.skip 1)
          (.function (m.frame.closure.inner σ.nextIdentity m.frame.scope line' code arity) :: os) line' k) := rfl
    rw [ho.closure, ho.scope] at hstep
    exact .of_step hstep
  | .list items line' =>
    have hitems : items = [] ∨ o.Conses m σ := by
      cases items with
      | nil => exact .inl rfl
      | cons y ys => exact .inr (hx.resolve_left id)
    exact (Machine.reaches_loadName ho.empty).trans (itemsRun host items os line' k ho hitems)
termination_by sizeOf x

theorem itemsRun (host : Host) (xs : List Item) {σ : Store} (os : List Value) (line : Nat)
    (k : List Instr) (ho : o.On m σ) (hx : xs = [] ∨ o.Conses m σ) :
    (m.resume σ (o.empty :: os) line (frontsCode line xs k)).Reaches host
      (m.resume (σ.skip (itemsSize o.cons xs)) (itemsValue o σ.nextIdentity xs :: os) line k) := by
  match xs with
  | [] => exact .refl _
  | x :: xs =>
    have hc := hx.resolve_left (List.cons_ne_nil x xs)
    let σ₁ := σ.skip (itemsSize o.cons xs)
    let σ₂ := σ₁.skip (x.size o.cons)
    have hend : σ₂.skip o.cons.joinSize = σ.skip (itemsSize o.cons (x :: xs)) := by
      simp only [σ₁, σ₂, Store.skip, itemsSize, Nat.add_assoc]
    have hfront : (m.resume σ₂ (x.value o σ₁.nextIdentity :: itemsValue o σ.nextIdentity xs :: os) x.line
        (frontCode line k)).Reaches host (m.resume (σ₂.skip o.cons.joinSize)
          (itemsValue o σ.nextIdentity (x :: xs) :: os) line k) := Outlook.Conses.run hc
    rw [hend] at hfront
    exact ((itemsRun host xs os line _ ho (.inr hc)).trans
      (x.runs host (σ := σ₁) _ line _ ⟨ho.closure, ho.scope, ho.unit, ho.empty⟩ (.inr hc))).trans hfront
termination_by sizeOf xs

end

theorem Case.join_like (hc : c.Like ρ d) (ha : 2 ≤ c.arity) {i j : Nat}
    (hid : ∀ t < c.joinSize, ρ (i + t) (j + t)) (hv : v.Like ρ A v') (hu : u.Like ρ A u') :
    (c.join i v u).Like ρ A (d.join j v' u') := by
  unfold joinSize at hid
  unfold join
  rw [← hc.arity]
  by_cases h2 : c.arity = 2
  · rw [if_pos h2, if_pos h2]
    exact .record hc (by omega) h2.symm (.cons hv (.cons hu .nil))
  · rw [if_neg h2] at hid
    have hij : ρ i j := hid 0 Nat.one_pos
    rw [if_neg h2, if_neg h2]
    exact .partialCall hij (.constructor hc (by omega)) (.cons hv (.cons hu .nil)) rfl
      (by simp only [List.length_cons, List.length_nil]; omega)

mutual

theorem Item.size_eq (h : c.arity = d.arity) : (x : Item) → x.size c = x.size d
  | .literal _ _ | .function _ _ _ => rfl
  | .list items _ => itemsSize_eq h items

theorem itemsSize_eq (h : c.arity = d.arity) : (xs : List Item) → itemsSize c xs = itemsSize d xs
  | [] => rfl
  | x :: xs => by
    rw [itemsSize, itemsSize, itemsSize_eq h xs, Item.size_eq h x, Case.joinSize, Case.joinSize, h]

end

mutual

/-- Items come to the same but for the numbers, if the numbers that are given out stand for one another. -/
theorem Item.value_like (ho : o.Like ρ A o') (x : Item) {i j : Nat}
    (hx : x.Flat ∨ o.cons.Like ρ o'.cons ∧ 2 ≤ o.cons.arity) (hA : x.Every fun code _ => A code)
    (hid : ∀ t < x.size o.cons, ρ (i + t) (j + t)) : (x.value o i).Like ρ A (x.value o' j) := by
  match x with
  | .literal (.number y) _ => exact .number y
  | .literal (.text s) _ => exact .text s
  | .literal .unit _ => exact ho.unit
  | .literal .emptyList _ => exact ho.empty
  | .function code arity line =>
    have hij : ρ i j := hid 0 Nat.one_pos
    refine .function ⟨hij, ?_, hA⟩
    rw [Closure.inner, Closure.inner, ho.scope, ← ho.closure.same]
  | .list items _ =>
    have hitems : items = [] ∨ o.cons.Like ρ o'.cons ∧ 2 ≤ o.cons.arity := by
      cases items with
      | nil => exact .inl rfl
      | cons y ys => exact .inr (hx.resolve_left id)
    exact itemsValue_like ho items hitems hA hid
termination_by sizeOf x

theorem itemsValue_like (ho : o.Like ρ A o') (xs : List Item) {i j : Nat}
    (hx : xs = [] ∨ o.cons.Like ρ o'.cons ∧ 2 ≤ o.cons.arity) (hA : EveryItem (fun code _ => A code) xs)
    (hid : ∀ t < itemsSize o.cons xs, ρ (i + t) (j + t)) :
    (itemsValue o i xs).Like ρ A (itemsValue o' j xs) := by
  match xs with
  | [] => exact ho.empty
  | x :: xs =>
    obtain ⟨hc, ha⟩ := hx.resolve_left (List.cons_ne_nil x xs)
    rw [itemsSize] at hid
    have hu := itemsValue_like ho xs (.inr ⟨hc, ha⟩) hA.2 fun t ht => hid t (by omega)
    have hv : (x.value o (i + itemsSize o.cons xs)).Like ρ A (x.value o' (j + itemsSize o.cons xs)) :=
      Item.value_like ho x (.inr ⟨hc, ha⟩) hA.1 fun t ht => by
        simp only [Nat.add_assoc]
        exact hid _ (by omega)
    have hjoin : ∀ t < o.cons.joinSize, ρ (i + itemsSize o.cons xs + x.size o.cons + t)
        (j + itemsSize o.cons xs + x.size o.cons + t) := fun t ht => by
      simp only [Nat.add_assoc]
      exact hid _ (by omega)
    rw [itemsValue, itemsValue, ← itemsSize_eq ho.arity xs, ← Item.size_eq ho.arity x]
    exact Case.join_like hc ha hjoin hv hu
termination_by sizeOf xs

end

theorem Case.join_ok (hc : κ.Has c) (ha : 2 ≤ c.arity) (hv : v.Ok κ) (hu : u.Ok κ) :
    (c.join n v u).Ok κ := by
  unfold join
  by_cases h2 : c.arity = 2
  · rw [if_pos h2]
    exact ⟨hc, by omega, h2.symm, hv, hu, trivial⟩
  · rw [if_neg h2]
    exact ⟨⟨hc, by omega⟩, ⟨hv, hu, trivial⟩, c.arity, rfl, by
      simp only [List.length_cons, List.length_nil]; omega⟩

mutual

theorem Item.value_ok (hunit : o.unit.Ok κ) (hempty : o.empty.Ok κ) (x : Item) {n : Nat}
    (hx : x.Flat ∨ κ.Has o.cons ∧ 2 ≤ o.cons.arity)
    (hb : x.Every fun code arity => Balanced (.body code) arity [] code.instrs) : (x.value o n).Ok κ := by
  match x with
  | .literal (.number _) _ | .literal (.text _) _ => trivial
  | .literal .unit _ => exact hunit
  | .literal .emptyList _ => exact hempty
  | .function code arity _ => exact show Balanced (.body code) arity [] code.instrs from hb
  | .list items _ =>
    have hitems : items = [] ∨ κ.Has o.cons ∧ 2 ≤ o.cons.arity := by
      cases items with
      | nil => exact .inl rfl
      | cons y ys => exact .inr (hx.resolve_left id)
    exact itemsValue_ok hunit hempty items hitems hb
termination_by sizeOf x

theorem itemsValue_ok (hunit : o.unit.Ok κ) (hempty : o.empty.Ok κ) (xs : List Item) {n : Nat}
    (hx : xs = [] ∨ κ.Has o.cons ∧ 2 ≤ o.cons.arity)
    (hb : EveryItem (fun code arity => Balanced (.body code) arity [] code.instrs) xs) :
    (itemsValue o n xs).Ok κ := by
  match xs with
  | [] => exact hempty
  | x :: xs =>
    obtain ⟨hc, ha⟩ := hx.resolve_left (List.cons_ne_nil x xs)
    exact Case.join_ok hc ha (Item.value_ok hunit hempty x (.inr ⟨hc, ha⟩) hb.1)
      (itemsValue_ok hunit hempty xs (.inr ⟨hc, ha⟩) hb.2)
termination_by sizeOf xs

end

end

end MatchLang
