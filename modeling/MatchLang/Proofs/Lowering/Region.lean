import MatchLang.Proofs.Code.Lexical
import MatchLang.Proofs.Links.Resolution
import MatchLang.Proofs.Lowering.Emission

/-! The slots of a unit that is being built. Some numbers are those of names of the unit itself, others those of names
in the functions inside, and list items come after all names. An emitter keeps to a region of such numbers if it reads
only what is in reach or has been saved, and saves only what belongs to the unit. -/

namespace MatchLang

/-- The unit that is written to: the slots that names in reach have, which of the numbers from `lo` up to `hi` are
those of names of the unit itself, and whether it may begin again. -/
structure Region where
  reach : Nat → Prop
  own : Nat → Prop
  lo : Nat
  hi : Nat
  tail : Bool

/-- An instruction that neither uses a slot nor makes a function nor begins the unit again. -/
def Op.isPlain : Op → Bool
  | .loadLocal _ | .saveLocal _ | .loadFunction _ _ | .tailCall _ => false
  | _ => true

def Group.Has (g : Group) (n : Nat) : Prop :=
  ∃ name slot, g.lookup name = some slot ∧ slot.id = n

/-- The region in which one more group is in reach. -/
def Region.within (r : Region) (g : Group) : Region :=
  { r with reach := fun n => r.reach n ∨ g.Has n }

/-- The names of some groups are in reach, and the numbers from `a` up to `b` are among those of the region. -/
structure Region.Covers (r : Region) (gs : List Group) (a b : Nat) : Prop where
  reach : ∀ g ∈ gs, ∀ n, g.Has n → r.reach n
  lo : r.lo ≤ a
  hi : b ≤ r.hi

/-- The slots that some names are linked to. -/
def Links.Gives (l : Links) (xs : List Leaf) (n : Nat) : Prop :=
  ∃ x ∈ xs, ∃ slot, l.get? x.id = some slot ∧ slot.id = n

/-- A name of the unit itself. -/
def Region.Owns (r : Region) (n : Nat) : Prop :=
  r.lo ≤ n ∧ n < r.hi ∧ r.own n

namespace Emitting

/-- A slot has been saved to. -/
def Saves (s : Emitting) (n : Nat) : Prop :=
  ∃ i ∈ s.unit.instrs.toList, i.op.saved? = some n

/-- What has been emitted keeps to a region, and has used the slots of list items from `i` on. -/
structure Lexical (r : Region) (i : Nat) (s : Emitting) : Prop where
  le : r.hi ≤ i
  slots_le : i ≤ s.nextSlot
  reads : ∀ line slot, .mk line (.loadLocal slot) ∈ s.unit.instrs.toList → r.reach slot.id ∨ s.Saves slot.id
  saves : ∀ n, s.Saves n → r.Owns n ∨ i ≤ n ∧ n < s.nextSlot
  inner : ∀ line d arity, .mk line (.loadFunction d arity) ∈ s.unit.instrs.toList →
    d.Lexical (fun n => r.reach n ∨ s.Saves n) ∧ d.EveryUnit Code.Shielded
  apart : ∀ line d arity n, .mk line (.loadFunction d arity) ∈ s.unit.instrs.toList → d.SavesWithin n →
    ¬ s.Saves n ∧ ((r.lo ≤ n ∧ n < r.hi ∧ ¬ r.own n) ∨ i ≤ n ∧ n < s.nextSlot)
  tails : r.tail = false → ∀ line argc, .mk line (.tailCall argc) ∉ s.unit.instrs.toList

variable {r : Region} {i line : Nat} {s t : Emitting} {op : Op}

theorem saves_emit {n : Nat} :
    Saves { s with unit := s.unit.emit line op } n ↔ s.Saves n ∨ op.saved? = some n := by
  simp only [Saves, Builder.instrs_emit, List.mem_append, List.mem_singleton]
  constructor
  · rintro ⟨j, hj | rfl, hn⟩
    · exact .inl ⟨j, hj, hn⟩
    · exact .inr hn
  · rintro (⟨j, hj, hn⟩ | hn)
    · exact ⟨j, .inl hj, hn⟩
    · exact ⟨_, .inr rfl, hn⟩

/-- One more instruction keeps to the region if its slot does, or the function that it makes. -/
theorem Lexical.emit (h : s.Lexical r i)
    (hload : ∀ slot, op = .loadLocal slot → r.reach slot.id ∨ s.Saves slot.id)
    (hsave : ∀ n, op.saved? = some n → (r.Owns n ∨ i ≤ n ∧ n < s.nextSlot) ∧
      ∀ line d arity, .mk line (.loadFunction d arity) ∈ s.unit.instrs.toList → ¬ d.SavesWithin n)
    (hmake : ∀ d arity, op = .loadFunction d arity →
      d.Lexical (fun n => r.reach n ∨ s.Saves n) ∧ d.EveryUnit Code.Shielded ∧ ∀ n, d.SavesWithin n →
        ¬ s.Saves n ∧ ((r.lo ≤ n ∧ n < r.hi ∧ ¬ r.own n) ∨ i ≤ n ∧ n < s.nextSlot))
    (htail : ∀ argc, op = .tailCall argc → r.tail = true) :
    Lexical r i { s with unit := s.unit.emit line op } := by
  have hmem : ∀ j, j ∈ (s.unit.emit line op).instrs.toList ↔ j ∈ s.unit.instrs.toList ∨ j = .mk line op := by
    intro j
    rw [Builder.instrs_emit, List.mem_append, List.mem_singleton]
  refine ⟨h.le, h.slots_le, fun line' slot hi => ?_, fun n hn => ?_, fun line' d arity hi => ?_,
    fun line' d arity n hi hn => ?_, fun ht line' argc hi => ?_⟩
  · rw [saves_emit]
    rcases (hmem _).mp hi with hi | hi
    · exact (h.reads line' slot hi).imp_right .inl
    · cases hi
      exact (hload slot rfl).imp_right .inl
  · rcases saves_emit.mp hn with hn | hn
    · exact h.saves n hn
    · exact (hsave n hn).1
  · have hmono : ∀ n, r.reach n ∨ s.Saves n → r.reach n ∨ Saves { s with unit := s.unit.emit line op } n :=
      fun n hn => hn.imp_right fun hn => saves_emit.mpr (.inl hn)
    rcases (hmem _).mp hi with hi | hi
    · exact ⟨(h.inner line' d arity hi).1.mono hmono, (h.inner line' d arity hi).2⟩
    · cases hi
      obtain ⟨hl, hs, -⟩ := hmake d arity rfl
      exact ⟨hl.mono hmono, hs⟩
  · rw [saves_emit, not_or]
    rcases (hmem _).mp hi with hi | hi
    · obtain ⟨hnot, hrange⟩ := h.apart line' d arity n hi hn
      exact ⟨⟨hnot, fun he => (hsave n he).2 line' d arity hi hn⟩, hrange⟩
    · cases hi
      obtain ⟨hnot, hrange⟩ := (hmake d arity rfl).2.2 n hn
      exact ⟨⟨hnot, nofun⟩, hrange⟩
  · rcases (hmem _).mp hi with hi | hi
    · exact h.tails ht line' argc hi
    · cases hi
      rw [htail argc rfl] at ht
      cases ht

/-- More slots may be given out. -/
theorem Lexical.withSlots {next : Nat} (h : s.Lexical r i) (hn : s.nextSlot ≤ next) :
    Lexical r i { s with nextSlot := next } where
  le := h.le
  slots_le := Nat.le_trans h.slots_le hn
  reads := h.reads
  saves n hs := (h.saves n hs).imp_right fun hi => ⟨hi.1, Nat.lt_of_lt_of_le hi.2 hn⟩
  inner := h.inner
  apart line d arity n hi hd := by
    obtain ⟨hnot, hrange⟩ := h.apart line d arity n hi hd
    exact ⟨hnot, hrange.imp_right fun hi => ⟨hi.1, Nat.lt_of_lt_of_le hi.2 hn⟩⟩
  tails := h.tails

/-- Only the instructions count. -/
theorem Lexical.congr (h : s.Lexical r i) (hi : t.unit.instrs = s.unit.instrs) (hn : t.nextSlot = s.nextSlot) :
    t.Lexical r i := by
  obtain ⟨⟨instrs, labels⟩, next⟩ := s
  obtain ⟨⟨instrs', labels'⟩, next'⟩ := t
  obtain rfl : instrs' = instrs := hi
  obtain rfl : next' = next := hn
  exact ⟨h.le, h.slots_le, h.reads, h.saves, h.inner, h.apart, h.tails⟩

/-- More names may be in reach. -/
theorem Lexical.reaches {reach : Nat → Prop} (h : s.Lexical r i) (hr : ∀ n, r.reach n → reach n) :
    s.Lexical { r with reach } i where
  le := h.le
  slots_le := h.slots_le
  reads line slot hi := (h.reads line slot hi).imp_left (hr _)
  saves := h.saves
  inner line d arity hi :=
    ⟨(h.inner line d arity hi).1.mono fun n hn => hn.imp_left (hr n), (h.inner line d arity hi).2⟩
  apart := h.apart
  tails := h.tails

/-- Names that have been saved need not be in reach any more. -/
theorem Lexical.leave {g : Group} (h : s.Lexical (r.within g) i) (hg : ∀ n, g.Has n → s.Saves n) :
    s.Lexical r i where
  le := h.le
  slots_le := h.slots_le
  reads line slot hi := by
    rcases h.reads line slot hi with (hr | hr) | hs
    · exact .inl hr
    · exact .inr (hg _ hr)
    · exact .inr hs
  saves := h.saves
  inner line d arity hi := by
    refine ⟨(h.inner line d arity hi).1.mono fun n hn => ?_, (h.inner line d arity hi).2⟩
    rcases hn with (hr | hr) | hs
    · exact .inl hr
    · exact .inr (hg _ hr)
    · exact .inr hs
  apart := h.apart
  tails := h.tails

theorem Lexical.empty {next : Nat} (h : r.hi ≤ next) : Lexical r next ⟨.empty, next⟩ where
  le := h
  slots_le := Nat.le_refl _
  reads line slot hi := by cases hi
  saves n := fun ⟨j, hj, _⟩ => by cases hj
  inner line d arity hi := by cases hi
  apart line d arity n hi := by cases hi
  tails _ line argc hi := by cases hi

/-- What is finished reads lexically, and no function in it saves to a slot of the unit around it. -/
theorem Lexical.finish {c : Code} (h : s.Lexical r i) (hf : s.unit.finish = .ok c) :
    c.Lexical r.reach ∧ c.EveryUnit Code.Shielded ∧
      (∀ n, c.SavesWithin n → (r.lo ≤ n ∧ n < r.hi) ∨ i ≤ n ∧ n < s.nextSlot) ∧ (r.tail = false → c.Steady) := by
  obtain ⟨-, hi, -⟩ := finish_eq_ok hf
  have hsaves : ∀ n, c.Saves n ↔ s.Saves n := fun n => by rw [Code.Saves, hi, Saves]
  have hfun : (fun n => r.reach n ∨ c.Saves n) = fun n => r.reach n ∨ s.Saves n :=
    funext fun n => by rw [hsaves]
  have hshielded : c.Shielded := by
    rintro d n ⟨line, arity, hd⟩ hn
    rw [hsaves]
    exact (h.apart line d arity n (hi ▸ hd) hn).1
  refine ⟨.mk (fun line slot hl => ?_) ?_, .of_inner hshielded fun line d arity hd => ?_, fun n hn => ?_, ?_⟩
  · rw [hsaves]
    exact h.reads line slot (hi ▸ hl)
  · rintro d ⟨line, arity, hd⟩
    rw [hfun]
    exact (h.inner line d arity (hi ▸ hd)).1
  · exact (h.inner line d arity (hi ▸ hd)).2
  · rcases hn.cases_inner with hn | ⟨d, ⟨line, arity, hd⟩, hn⟩
    · exact (h.saves n ((hsaves n).mp hn)).imp_left fun hn => ⟨hn.1, hn.2.1⟩
    · exact (h.apart line d arity n (hi ▸ hd) hn).2.imp_left fun hn => ⟨hn.1, hn.2.1⟩
  · rintro ht ⟨line, op⟩ hj argc rfl
    exact h.tails ht line argc (hi ▸ hj)

end Emitting

/-- Where some slots have been saved to, an emitter keeps to a region and saves to some more, which its result may
name. -/
def Emitter.Keeps {α : Type} (r : Region) (before : Nat → Prop) (x : Emitter α) (after : α → Nat → Prop) : Prop :=
  ∀ s a t, x.run s = .ok (a, t) → (∀ n, before n → s.Saves n) →
    (∀ n, s.Saves n → t.Saves n) ∧ (∀ n, after a n → t.Saves n) ∧
      ∀ reach i, (∀ n, r.reach n → reach n) → s.Lexical { r with reach } i → t.Lexical { r with reach } i

/-- An emitter that saves to no slot that counts. -/
abbrev Emitter.Stays {α : Type} (r : Region) (before : Nat → Prop) (x : Emitter α) : Prop :=
  x.Keeps r before fun _ _ => False

namespace Emitter

variable {α β : Type} {r : Region} {before before' : Nat → Prop} {x : Emitter α} {f : α → Emitter β}
  {after : α → Nat → Prop} {done : β → Nat → Prop} {g : Group}

theorem Keeps.pure {a : α} (h : ∀ n, after a n → before n) : Keeps r before (pure a : Emitter α) after := by
  intro s b t hrun hb
  obtain ⟨rfl, rfl⟩ := pure_eq_ok hrun
  exact ⟨fun _ hn => hn, fun n hn => hb n (h n hn), fun _ _ _ hs => hs⟩

theorem Keeps.bind (hx : Keeps r before x after)
    (hf : ∀ a, Keeps r (fun n => before n ∨ after a n) (f a) done) : Keeps r before (x >>= f) done := by
  intro s b t hrun hb
  obtain ⟨a, u, h₁, h₂⟩ := bind_eq_ok hrun
  obtain ⟨hkeep, hafter, hlex⟩ := hx s a u h₁ hb
  obtain ⟨hkeep', hdone, hlex'⟩ := hf a u b t h₂ fun n hn => hn.elim (fun hn => hkeep n (hb n hn)) (hafter n)
  exact ⟨fun n hn => hkeep' n (hkeep n hn), hdone, fun reach i hr hs => hlex' reach i hr (hlex reach i hr hs)⟩

/-- More may have been saved before, and less may be said of what is saved. -/
theorem Keeps.mono {less : α → Nat → Prop} (h : Keeps r before x after) (hb : ∀ n, before n → before' n)
    (ha : ∀ a n, less a n → after a n ∨ before' n) : Keeps r before' x less := by
  intro s a t hrun hs
  obtain ⟨hkeep, hafter, hlex⟩ := h s a t hrun fun n hn => hs n (hb n hn)
  exact ⟨hkeep, fun n hn => (ha a n hn).elim (hafter n) fun hn => hkeep n (hs n hn), hlex⟩

theorem Keeps.ite {p : Prop} [Decidable p] {y : Emitter α} (hx : Keeps r before x after)
    (hy : Keeps r before y after) : Keeps r before (if p then x else y) after := by
  split
  · exact hx
  · exact hy

theorem Keeps.lift {e : Except CompileError α} : Stays r before (liftM e : Emitter α) := by
  intro s a t hrun _
  obtain ⟨-, rfl⟩ := lift_eq_ok hrun
  exact ⟨fun _ hn => hn, nofun, fun _ _ _ hs => hs⟩

theorem Keeps.reject {failure : CompileFailure} {line : Nat} :
    Keeps r before (reject failure line : Emitter α) after :=
  fun _ _ _ h => absurd h reject_ne_ok

/-- The names of a group are in reach until they have been saved. -/
theorem Keeps.leave (h : Keeps (r.within g) before x after) (hg : ∀ a n, g.Has n → after a n) :
    Keeps r before x after := by
  intro s a t hrun hb
  obtain ⟨hkeep, hafter, hlex⟩ := h s a t hrun hb
  refine ⟨hkeep, hafter, fun reach i hr hs => ?_⟩
  have hwithin : t.Lexical (Region.within { r with reach } g) i :=
    hlex (fun n => reach n ∨ g.Has n) i (fun n hn => hn.imp_left (hr n)) (hs.reaches fun n hn => .inl hn)
  exact hwithin.leave fun n hn => hafter n (hg a n hn)

end Emitter

section

open Emitter

variable {l : Links} {r : Region} {before : Nat → Prop} {line label : Nat}

theorem emit_stays {op : Op} (h : op.isPlain = true) : Stays r before (emit line op) := by
  intro s a t hrun _
  cases hrun
  refine ⟨fun n hn => Emitting.saves_emit.mpr (.inl hn), nofun, fun reach i _ hs => ?_⟩
  cases op with
  | loadLocal _ | saveLocal _ | loadFunction _ _ | tailCall _ => cases h
  | _ => exact hs.emit nofun nofun nofun nofun

theorem emit_tailCall_stays {argc : Nat} (h : r.tail = true) : Stays r before (emit line (.tailCall argc)) := by
  intro s a t hrun _
  cases hrun
  exact ⟨fun n hn => Emitting.saves_emit.mpr (.inl hn), nofun, fun reach i _ hs => hs.emit nofun nofun nofun fun _ _ => h⟩

theorem emit_load_stays {slot : Slot} (h : r.reach slot.id ∨ before slot.id) :
    Stays r before (emit line (.loadLocal slot)) := by
  intro s a t hrun hb
  cases hrun
  refine ⟨fun n hn => Emitting.saves_emit.mpr (.inl hn), nofun, fun reach i hr hs => ?_⟩
  refine hs.emit (fun slot' he => ?_) nofun nofun nofun
  cases he
  exact h.imp (hr _) (hb _)

theorem emit_save_keeps {slot : Slot} (h : r.Owns slot.id) :
    Keeps r before (emit line (.saveLocal slot)) fun _ n => n = slot.id := by
  intro s a t hrun _
  cases hrun
  refine ⟨fun n hn => Emitting.saves_emit.mpr (.inl hn), fun n hn => Emitting.saves_emit.mpr (.inr (congrArg some hn.symm)),
    fun reach i hr hs => hs.emit nofun (fun n hn => ?_) nofun nofun⟩
  obtain rfl : slot.id = n := Option.some.inj hn
  refine ⟨.inl h, fun line' d arity hi hd => ?_⟩
  -- What is saved inside is not a name of the unit, and items come after all names.
  have hle : r.hi ≤ i := hs.le
  obtain ⟨hlo, hlt, hown⟩ := h
  rcases (hs.apart line' d arity _ hi hd).2 with ⟨-, -, hnot⟩ | ⟨hle', -⟩
  · exact hnot hown
  · omega

theorem freshLabel_stays : Stays r before (freshLabel line) := by
  intro s a t hrun _
  cases hrun
  exact ⟨fun _ hn => hn, nofun, fun _ _ _ hs => hs.congr rfl rfl⟩

theorem attach_stays : Stays r before (attach label line) := by
  intro s a t hrun _
  obtain ⟨_, u, hget, h⟩ := bind_eq_ok hrun
  cases hget
  obtain ⟨unit, u', ha, h⟩ := bind_eq_ok h
  cases h
  obtain ⟨ha, rfl⟩ := lift_eq_ok ha
  have hi : unit.instrs = u'.unit.instrs := Builder.instrs_attach ha
  refine ⟨fun n hn => ?_, nofun, fun _ _ _ hs => hs.congr hi rfl⟩
  show ∃ i ∈ unit.instrs.toList, _
  rw [hi]
  exact hn

/-- The slot of an item is new, so nothing inside saves there. -/
theorem saveItem_keeps {name : String} {line' : Nat} {slot : Slot} {s s' t : Emitting}
    (h₁ : (freshSlot name line).run s = .ok (slot, s')) (h₂ : (emit line' (.saveLocal slot)).run s' = .ok ((), t)) :
    (∀ n, s.Saves n → t.Saves n) ∧ t.Saves slot.id ∧ ∀ i, s.Lexical r i → t.Lexical r i := by
  cases h₁
  cases h₂
  refine ⟨fun n hn => Emitting.saves_emit.mpr (.inl hn), Emitting.saves_emit.mpr (.inr rfl), fun i hs => ?_⟩
  refine (hs.withSlots (Nat.le_succ s.nextSlot)).emit nofun (fun n hn => ?_) nofun nofun
  obtain rfl : s.nextSlot = n := Option.some.inj hn
  refine ⟨.inr ⟨hs.slots_le, Nat.lt_succ_self _⟩, fun line d arity hi hd => ?_⟩
  have hle := hs.le
  have hslots := hs.slots_le
  rcases (hs.apart line d arity _ hi hd).2 with ⟨-, hlt, -⟩ | ⟨-, hlt⟩
  · omega
  · exact absurd hlt (Nat.lt_irrefl _)

/-- A function is a unit of its own. All its slots have numbers that no name of the unit around has. -/
theorem makeFunction_stays {build : Emitter Unit} {arity a b : Nat} {own : Nat → Prop} {after : Unit → Nat → Prop}
    (hlo : r.lo ≤ a) (hhi : b ≤ r.hi) (hav : Avoids r.own a b)
    (hb : Keeps { reach := r.reach, own, lo := a, hi := b, tail := true } (fun _ => False) build after) :
    Stays r before (inOwnUnit build >>= fun code => emit line (.loadFunction code arity)) := by
  intro s _ t hrun hbefore
  obtain ⟨code, u, h₁, h₂⟩ := bind_eq_ok hrun
  obtain ⟨v, hbuild, hf, rfl⟩ := inOwnUnit_eq_ok h₁
  cases h₂
  refine ⟨fun n hn => Emitting.saves_emit.mpr (.inl hn), nofun, fun reach i hr hs => ?_⟩
  have hle : r.hi ≤ i := hs.le
  have hslots := hs.slots_le
  have hinner := (hb _ _ v hbuild nofun).2.2 reach s.nextSlot hr (.empty (show b ≤ s.nextSlot by omega))
  obtain ⟨hlex, hshield, hrange, -⟩ := hinner.finish hf
  have hnext : s.nextSlot ≤ v.nextSlot := hinner.slots_le
  have hout : Emitting.Lexical { r with reach } i { v with unit := s.unit } := hs.withSlots hnext
  refine hout.emit nofun nofun (fun d arity' he => ?_) nofun
  cases he
  refine ⟨hlex.mono fun n hn => .inl hn, hshield, fun n hn => ?_⟩
  have hrange : (a ≤ n ∧ n < b) ∨ s.nextSlot ≤ n ∧ n < v.nextSlot := hrange n hn
  constructor
  · intro hsaved
    rcases hs.saves n hsaved with ⟨-, hlt, hown⟩ | ⟨hle', hlt⟩
    · have hlt : n < r.hi := hlt
      rcases hrange with ⟨ha, hb'⟩ | ⟨hge, -⟩
      · exact hav n ha hb' hown
      · omega
    · omega
  · rcases hrange with ⟨ha, hb'⟩ | ⟨hge, hlt⟩
    · exact .inl ⟨Nat.le_trans hlo ha, Nat.lt_of_lt_of_le hb' hhi, hav n ha hb'⟩
    · exact .inr ⟨Nat.le_trans hslots hge, hlt⟩

end

end MatchLang
