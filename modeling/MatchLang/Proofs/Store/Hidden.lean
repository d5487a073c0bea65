import MatchLang.Proofs.Store.Like

/-! Slots that one run has and the other has not. A run may keep values for later in slots that no code asks
for but the code that keeps them. The numbers in such a value have been given out, and stand for nothing on
the other side until the value is made there as well. -/

namespace MatchLang

/-- Neither the code nor that of a function in it has to do with some slots. -/
inductive Code.Spares (hidden : Nat → Prop) : Code → Prop where
  | intro {code} : (∀ line slot, .mk line (.loadLocal slot) ∈ code.instrs → ¬ hidden slot.id) →
    (∀ line slot, .mk line (.saveLocal slot) ∈ code.instrs → ¬ hidden slot.id) →
    (∀ line inner arity, .mk line (.loadFunction inner arity) ∈ code.instrs → Spares hidden inner) →
    Spares hidden code

section

variable {hidden : Nat → Prop} {code : Code} {line : Nat} {op : Op}

theorem Code.Spares.keeps (h : code.Spares hidden) (hi : .mk line op ∈ code.instrs) :
    op.Keeps hidden (Code.Spares hidden) := by
  obtain ⟨hload, hsave, hinner⟩ := h
  cases op with
  | loadLocal slot => exact hload _ _ hi
  | saveLocal slot => exact hsave _ _ hi
  | loadFunction inner arity => exact hinner _ _ _ hi
  | _ => trivial

theorem Code.Spares.of_keeps (h : ∀ line op, .mk line op ∈ code.instrs → op.Keeps hidden (Code.Spares hidden)) :
    code.Spares hidden :=
  ⟨fun _ _ hi => h _ _ hi, fun _ _ hi => h _ _ hi, fun _ _ _ hi => h _ _ hi⟩

/-- The second run has slots of its own in a scope. -/
def Slack.hiding (scope : Nat) (hidden : Nat → Prop) : Slack where
  numbers := fun _ _ => True
  counters := fun _ _ => True
  scope := scope
  hidden := hidden
  held := fun _ => .none
  admits := Code.Spares hidden
  passes := fun is => ∀ line op, .mk line op ∈ is → op.Keeps hidden (Code.Spares hidden)
  counters_next _ _ _ := ⟨trivial, trivial⟩
  hides_held _ _ h := nomatch h
  passes_cons _ _ _ h := ⟨h _ _ List.mem_cons_self, fun _ _ hi => h _ _ (List.mem_cons_of_mem _ hi)⟩
  passes_drop _ _ h _ _ hi := h.keeps (List.mem_of_mem_drop hi)

/-- The second run has kept a value in a slot, for which it has given out `count` numbers from `first` on. -/
def Slack.keep (w : Slack) (slot : Nat) (v : Value) (first count : Nat) (hs : w.hidden slot) : Slack where
  numbers := fun i j => w.numbers i j ∧ (j < first ∨ first + count ≤ j)
  counters := fun n n' => w.counters n n' ∧ first + count ≤ n'
  scope := w.scope
  hidden := w.hidden
  held := fun n => if n = slot then some v else w.held n
  admits := w.admits
  passes := w.passes
  counters_next n n' h := by
    obtain ⟨hn, hc⟩ := w.counters_next n n' h.1
    exact ⟨⟨hn, .inr h.2⟩, hc, Nat.le_succ_of_le h.2⟩
  hides_held n u hu := by
    split at hu
    · rename_i he
      exact he ▸ hs
    · exact w.hides_held n u hu
  passes_cons := w.passes_cons
  passes_drop := w.passes_drop

/-- The second run may be as far ahead with its numbers as it likes, and the first may catch up. -/
def Slack.Loose (w : Slack) : Prop :=
  ∀ n n' i i', w.counters n n' → n' ≤ i' → w.counters i i'

theorem Slack.hiding_loose (scope : Nat) (hidden : Nat → Prop) : (Slack.hiding scope hidden).Loose :=
  fun _ _ _ _ _ _ => trivial

theorem Slack.Loose.keep {w : Slack} (hw : w.Loose) {slot first count : Nat} {v : Value}
    (hs : w.hidden slot) : (w.keep slot v first count hs).Loose :=
  fun n n' i i' h hi => ⟨hw n n' i i' h.1 hi, Nat.le_trans h.2 hi⟩

end

theorem Numbering.Fits.mono_right {ρ : Numbering} {n n' m : Nat} (h : ρ.Fits n n') (hm : n' ≤ m) :
    ρ.Fits n m where
  lt i j hij := ⟨(h.lt i j hij).1, Nat.lt_of_lt_of_le (h.lt i j hij).2 hm⟩
  iff := h.iff
  builtin := h.builtin

namespace Store.Like

variable {ρ : Numbering} {w : Slack} {σ τ : Store} {v : Value} {slot first count n n' : Nat}

/-- What is saved in a hidden slot makes no difference, unless something is kept there. -/
theorem save_hidden (h : σ.Like ρ w τ) (hs : w.hidden slot) (hno : w.held slot = none) :
    σ.Like ρ w (τ.save w.scope slot v) where
  fits := h.fits
  pairs := h.pairs
  next := h.next
  scopes := by rw [size_save, h.scopes]
  parents t := by rw [parent_save, h.parents]
  slots t n ht := by
    rw [slot?_save, if_neg]
    · exact h.slots t n ht
    · rintro ⟨he, rfl, _⟩
      exact ht he hs
  held n u hu := by
    rw [slot?_save, if_neg]
    · exact h.held n u hu
    · rintro ⟨_, rfl, _⟩
      cases hno.symm.trans hu
  roots := h.roots
  root := h.root
  modules := h.modules
  nextSlot := h.nextSlot
  console := h.console

/-- The second run makes a value and keeps it. -/
theorem keep (h : σ.Like ρ w τ) (hw : w.Loose) (hs : w.hidden slot) (hno : w.held slot = none)
    (hscope : w.scope < σ.scopes.size) (count : Nat) :
    σ.Like ρ (w.keep slot v τ.nextIdentity count hs) ((τ.skip count).save w.scope slot v) := by
  have hsave : σ.Like ρ w ((τ.skip count).save w.scope slot v) :=
    save_hidden
      { fits := h.fits.mono_right (Nat.le_add_right _ _)
        pairs := h.pairs
        next := hw _ _ _ _ h.next (Nat.le_add_right _ _)
        scopes := h.scopes
        parents := h.parents
        slots := h.slots
        held := h.held
        roots := h.roots
        root := h.root
        modules := h.modules
        nextSlot := h.nextSlot
        console := h.console } hs hno
  exact
    { fits := hsave.fits
      pairs := fun i j hij => ⟨h.pairs i j hij, .inl (h.fits.lt i j hij).2⟩
      next := ⟨hsave.next, Nat.le_refl _⟩
      scopes := hsave.scopes
      parents := hsave.parents
      slots := hsave.slots
      held := fun n u hu => by
        simp only [Slack.keep] at hu
        split at hu
        · rename_i he
          cases hu
          have hlt : w.scope < (τ.skip count).scopes.size := Nat.lt_of_lt_of_eq hscope h.scopes
          exact slot?_save.trans (if_pos ⟨rfl, he, hlt⟩)
        · exact hsave.held n u hu
      roots := hsave.roots
      root := hsave.root
      modules := hsave.modules
      nextSlot := hsave.nextSlot
      console := hsave.console }

theorem unkeep {hs : w.hidden slot} (h : σ.Like ρ (w.keep slot v first count hs) τ)
    (hno : w.held slot = none) : σ.Like ρ w τ where
  fits := h.fits
  pairs i j hij := (h.pairs i j hij).1
  next := h.next.1
  scopes := h.scopes
  parents := h.parents
  slots := h.slots
  held n u hu := by
    refine h.held n u ?_
    simp only [Slack.keep]
    rw [if_neg]
    · exact hu
    · rintro rfl
      cases hno.symm.trans hu
  roots := h.roots
  root := h.root
  modules := h.modules
  nextSlot := h.nextSlot
  console := h.console

/-- The first run makes the value that the second has kept, and from then on its numbers stand for those. -/
theorem catch_up {hs : w.hidden slot} (h : σ.Like ρ (w.keep slot v first count hs) τ) (hw : w.Loose)
    (hno : w.held slot = none) (hfirst : w.counters n first) :
    (σ.skip count).Like (ρ.extend σ.nextIdentity first count) w τ := by
  have hlike := h.unkeep hno
  have hnew : ∀ i j, ρ i j → i < σ.nextIdentity ∧ (j < first ∨ first + count ≤ j) := fun i j hij =>
    ⟨(h.fits.lt i j hij).1, (h.pairs i j hij).2⟩
  have hahead : first + count ≤ τ.nextIdentity := h.next.2
  exact
    { fits :=
        { lt := fun i j hij => by
            rcases hij with hij | ⟨t, ht, rfl, rfl⟩
            · have hlt := h.fits.lt i j hij
              exact ⟨Nat.lt_of_lt_of_le hlt.1 (Nat.le_add_right _ _), hlt.2⟩
            · exact ⟨Nat.add_lt_add_left ht _, by omega⟩
          iff := fun i j i' j' hij hij' => by
            rcases hij with hij | ⟨t, ht, rfl, rfl⟩ <;> rcases hij' with hij' | ⟨t', ht', rfl, rfl⟩
            · exact h.fits.iff i j i' j' hij hij'
            · have hn := hnew i j hij
              omega
            · have hn := hnew i' j' hij'
              omega
            · omega
          builtin := fun i hi => .inl (h.fits.builtin i hi) }
      pairs := fun i j hij => by
        rcases hij with hij | ⟨t, ht, rfl, rfl⟩
        · exact hlike.pairs i j hij
        · exact (w.counters_next _ _ (hw _ _ _ _ hfirst (Nat.le_add_right _ _))).1
      next := hw _ _ _ _ hlike.next (Nat.le_refl _)
      scopes := hlike.scopes
      parents := hlike.parents
      slots := fun t n ht => by
        obtain hnone | ⟨u, u', h₁, h₂, hu⟩ := hlike.slots t n ht
        · exact .inl hnone
        · exact .inr ⟨u, u', h₁, h₂, hu.mono (fun _ _ => Numbering.le_extend) u⟩
      held := hlike.held
      roots := hlike.roots
      root := fun r => (hlike.root r).mono fun _ _ => Numbering.le_extend
      modules := hlike.modules
      nextSlot := hlike.nextSlot
      console := hlike.console }

end Store.Like

end MatchLang
