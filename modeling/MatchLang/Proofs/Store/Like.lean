import MatchLang.Machine.Load
import MatchLang.Proofs.Namespace.Like
import MatchLang.Proofs.Store.View

/-! Two stores that hold the same but for the numbers in their values. The second may hold more: it may have given
out numbers that the first has not, and in one scope it may have slots of its own, which no code that is run asks
for. -/

namespace MatchLang

/-- Whether an instruction leaves some slots alone and makes functions of admitted code only. -/
def Op.Keeps (hidden : Nat → Prop) (admits : Code → Prop) : Op → Prop
  | .loadLocal slot => ¬ hidden slot.id
  | .saveLocal slot => ¬ hidden slot.id
  | .loadFunction code _ => admits code
  | _ => True

/-- How far two runs may differ. Which numbers may stand for one another is said, and how the next ones on the
two sides are related; in one scope the second run has its own values in some slots, of which some are known.
The code that is run is admitted, and passes these slots by. -/
structure Slack where
  numbers : Nat → Nat → Prop
  counters : Nat → Nat → Prop
  scope : Nat
  hidden : Nat → Prop
  held : Nat → Option Value
  admits : Code → Prop
  passes : List Instr → Prop
  counters_next : ∀ n n', counters n n' → numbers n n' ∧ counters (n + 1) (n' + 1)
  hides_held : ∀ slot v, held slot = some v → hidden slot
  passes_cons : ∀ line op k, passes (.mk line op :: k) → op.Keeps hidden admits ∧ passes k
  passes_drop : ∀ code n, admits code → passes (code.instrs.drop n)

theorem Op.keeps_all (op : Op) : op.Keeps (fun _ => False) (fun _ => True) := by
  cases op <;> simp [Op.Keeps]

/-- Nothing differs. -/
def Slack.none : Slack where
  numbers := Eq
  counters := Eq
  scope := 0
  hidden := fun _ => False
  held := fun _ => .none
  admits := fun _ => True
  passes := fun _ => True
  counters_next _ _ h := ⟨h, congrArg (· + 1) h⟩
  hides_held _ _ h := nomatch h
  passes_cons _ op _ _ := ⟨op.keeps_all, trivial⟩
  passes_drop _ _ _ := trivial

/-- Nothing but the numbers may differ. -/
def Slack.renumbered : Slack where
  numbers := fun _ _ => True
  counters := fun _ _ => True
  scope := 0
  hidden := fun _ => False
  held := fun _ => .none
  admits := fun _ => True
  passes := fun _ => True
  counters_next _ _ _ := ⟨trivial, trivial⟩
  hides_held _ _ h := nomatch h
  passes_cons _ op _ _ := ⟨op.keeps_all, trivial⟩
  passes_drop _ _ _ := trivial

structure Store.Like (ρ : Numbering) (w : Slack) (σ τ : Store) : Prop where
  fits : ρ.Fits σ.nextIdentity τ.nextIdentity
  pairs : ∀ i j, ρ i j → w.numbers i j
  next : w.counters σ.nextIdentity τ.nextIdentity
  scopes : σ.scopes.size = τ.scopes.size
  parents : ∀ t : Nat, σ.scopes[t]?.map Scope.parent = τ.scopes[t]?.map Scope.parent
  slots : ∀ t n, (t = w.scope → ¬ w.hidden n) → Both (Value.Like ρ w.admits) (σ.slot? t n) (τ.slot? t n)
  held : ∀ n v, w.held n = some v → τ.slot? w.scope n = some v
  roots : σ.roots.size = τ.roots.size
  root : ∀ r, (σ.root r).Like ρ w.admits (τ.root r)
  modules : σ.modules = τ.modules
  nextSlot : σ.nextSlot = τ.nextSlot
  console : σ.console = τ.console

theorem Slack.counters_add {w : Slack} {n n' : Nat} (h : w.counters n n') (k : Nat) :
    w.counters (n + k) (n' + k) := by
  induction k with
  | zero => exact h
  | succ k ih => exact (w.counters_next _ _ ih).2

/-- After some numbers have been given out. -/
def Store.skip (σ : Store) (k : Nat) : Store :=
  { σ with nextIdentity := σ.nextIdentity + k }

theorem Store.parent_save {σ : Store} {v : Value} {scope slot t : Nat} :
    (σ.save scope slot v).scopes[t]?.map Scope.parent = σ.scopes[t]?.map Scope.parent := by
  unfold Store.save
  rw [Array.getElem?_modify]
  split
  · cases σ.scopes[t]? <;> rfl
  · rfl

namespace Store.Like

variable {ρ ρ' : Numbering} {w : Slack} {σ τ : Store} {v v' : Value} {ns ns' : Namespace}
  {scope slot r k : Nat}

theorem module?_eq (h : σ.Like ρ w τ) (file : String) : σ.module? file = τ.module? file := by
  rw [Store.module?, Store.module?, h.modules]

theorem lookupFrom (h : σ.Like ρ w τ) (hn : ¬ w.hidden slot) (k scope : Nat) :
    Both (Value.Like ρ w.admits) (Store.lookupFrom σ.scopes k scope slot)
      (Store.lookupFrom τ.scopes k scope slot) := by
  induction k generalizing scope with
  | zero => exact .inl ⟨rfl, rfl⟩
  | succ k ih =>
    rw [Store.lookupFrom, Store.lookupFrom]
    have hp := h.parents scope
    have hs := h.slots scope slot fun _ => hn
    unfold Store.slot? at hs
    cases h₁ : σ.scopes[scope]? with
    | none =>
      rw [h₁] at hp
      have h₂ : τ.scopes[scope]? = none := Option.map_eq_none_iff.mp hp.symm
      rw [h₂]
      exact .inl ⟨rfl, rfl⟩
    | some s =>
      rw [h₁] at hp hs
      obtain ⟨s', h₂, he⟩ := Option.map_eq_some_iff.mp hp.symm
      rw [h₂] at hs
      rw [h₂]
      simp only [Option.bind_some] at hs
      obtain ⟨hg₁, hg₂⟩ | ⟨v, v', hg₁, hg₂, hv⟩ := hs
      · simp only [hg₁, hg₂, he]
        cases s.parent with
        | none => exact .inl ⟨rfl, rfl⟩
        | some p => exact ih p
      · simp only [hg₁, hg₂]
        exact .inr ⟨v, v', rfl, rfl, hv⟩

theorem lookup (h : σ.Like ρ w τ) (hn : ¬ w.hidden slot) (scope : Nat) :
    Both (Value.Like ρ w.admits) (σ.lookup scope slot) (τ.lookup scope slot) :=
  h.lookupFrom hn _ scope

theorem save (h : σ.Like ρ w τ) (hn : ¬ w.hidden slot) (hv : v.Like ρ w.admits v') :
    (σ.save scope slot v).Like ρ w (τ.save scope slot v') where
  fits := h.fits
  pairs := h.pairs
  next := h.next
  scopes := by rw [size_save, size_save, h.scopes]
  parents t := by rw [parent_save, parent_save, h.parents]
  slots t n ht := by
    rw [slot?_save, slot?_save, h.scopes]
    split
    · exact .inr ⟨v, v', rfl, rfl, hv⟩
    · exact h.slots t n ht
  held n u hu := by
    rw [slot?_save, if_neg]
    · exact h.held n u hu
    · rintro ⟨_, rfl, _⟩
      exact hn (w.hides_held n u hu)
  roots := h.roots
  root := h.root
  modules := h.modules
  nextSlot := h.nextSlot
  console := h.console

theorem newScope (h : σ.Like ρ w τ) (parent : Option Nat) :
    (σ.newScope parent).2.Like ρ w (τ.newScope parent).2 where
  fits := h.fits
  pairs := h.pairs
  next := h.next
  scopes := by rw [size_newScope, size_newScope, h.scopes]
  parents t := by
    simp only [Store.newScope, Array.getElem?_push, h.scopes]
    split
    · rfl
    · exact h.parents t
  slots t n ht := by
    rw [slot?_newScope, slot?_newScope]
    exact h.slots t n ht
  held n u hu := by
    rw [slot?_newScope]
    exact h.held n u hu
  roots := h.roots
  root := h.root
  modules := h.modules
  nextSlot := h.nextSlot
  console := h.console

theorem newRoot (h : σ.Like ρ w τ) (hn : ns.Like ρ w.admits ns') :
    (σ.newRoot ns).2.Like ρ w (τ.newRoot ns').2 where
  fits := h.fits
  pairs := h.pairs
  next := h.next
  scopes := h.scopes
  parents := h.parents
  slots := h.slots
  held := h.held
  roots := by simp [Store.newRoot, h.roots]
  root i := by
    rw [root_newRoot, root_newRoot, h.roots]
    split
    · exact hn
    · exact h.root i
  modules := h.modules
  nextSlot := h.nextSlot
  console := h.console

theorem updateRoot {change change' : Namespace → Namespace} (h : σ.Like ρ w τ)
    (hc : (change (σ.root r)).Like ρ w.admits (change' (τ.root r))) :
    (σ.updateRoot r change).Like ρ w (τ.updateRoot r change') where
  fits := h.fits
  pairs := h.pairs
  next := h.next
  scopes := h.scopes
  parents := h.parents
  slots := h.slots
  held := h.held
  roots := by rw [size_updateRoot, size_updateRoot, h.roots]
  root i := by
    rw [root_updateRoot, root_updateRoot, h.roots]
    split
    · exact hc
    · exact h.root i
  modules := h.modules
  nextSlot := h.nextSlot
  console := h.console

theorem setRoot (h : σ.Like ρ w τ) (hn : ns.Like ρ w.admits ns') :
    (σ.setRoot r ns).Like ρ w (τ.setRoot r ns') :=
  h.updateRoot hn

theorem withConsole (h : σ.Like ρ w τ) (console : Console) :
    Store.Like ρ w { σ with console } { τ with console } :=
  ⟨h.fits, h.pairs, h.next, h.scopes, h.parents, h.slots, h.held, h.roots, h.root, h.modules,
    h.nextSlot, rfl⟩

theorem withNextSlot (h : σ.Like ρ w τ) (nextSlot : Nat) :
    Store.Like ρ w { σ with nextSlot } { τ with nextSlot } :=
  ⟨h.fits, h.pairs, h.next, h.scopes, h.parents, h.slots, h.held, h.roots, h.root, h.modules,
    rfl, h.console⟩

theorem remember (h : σ.Like ρ w τ) (file : String) (root : Nat) :
    (σ.remember file root).Like ρ w (τ.remember file root) :=
  ⟨h.fits, h.pairs, h.next, h.scopes, h.parents, h.slots, h.held, h.roots, h.root,
    congrArg (Table.set · file root) h.modules, h.nextSlot, h.console⟩

/-- The next numbers on both sides stand for one another. -/
theorem extend (h : σ.Like ρ w τ) (k : Nat) :
    Store.Like (ρ.extend σ.nextIdentity τ.nextIdentity k) w
      { σ with nextIdentity := σ.nextIdentity + k } { τ with nextIdentity := τ.nextIdentity + k } where
  fits := h.fits.extend k
  pairs i j hij := by
    rcases hij with hij | ⟨t, _, rfl, rfl⟩
    · exact h.pairs i j hij
    · exact (w.counters_next _ _ (Slack.counters_add h.next t)).1
  next := Slack.counters_add h.next k
  scopes := h.scopes
  parents := h.parents
  slots t n ht := by
    obtain hno | ⟨v, v', h₁, h₂, hv⟩ := h.slots t n ht
    · exact .inl hno
    · exact .inr ⟨v, v', h₁, h₂, hv.mono (fun _ _ => Numbering.le_extend) v⟩
  held := h.held
  roots := h.roots
  root r := (h.root r).mono fun _ _ => Numbering.le_extend
  modules := h.modules
  nextSlot := h.nextSlot
  console := h.console

theorem newSeededRoot (h : σ.Like ρ w τ) : σ.newSeededRoot.2.Like ρ w τ.newSeededRoot.2 :=
  h.newRoot (Namespace.seed_like h.fits)

end Store.Like

end MatchLang
