import MatchLang.Proofs.Code.Lexical
import MatchLang.Proofs.Session.Scopes
import MatchLang.Proofs.Store.Beyond

/-! Scopes and the units that run in them. Of each scope it is known which units have run in it; only they save there.
The scope of a function lies in one where the function was made, so the scopes around it are those of the units
around its code, and no two of these save to the same slot. -/

namespace MatchLang

/-- What has run in a scope and in those around it leaves the slots of some code alone. -/
def Store.Clears (ran : Nat → Code → Prop) (σ : Store) (s : Nat) (c : Code) : Prop :=
  ∀ t u n, σ.Outward s t → ran t u → c.SavesWithin n → ¬ u.Saves n

/-- A function that was made in a scope by what has run there. -/
structure Store.Places (ran : Nat → Code → Prop) (σ : Store) (c : Closure) : Prop where
  maker : ∃ u, ran c.scope u ∧ u.Makes c.code
  shielded : c.code.EveryUnit Code.Shielded
  cleared : σ.Clears ran c.scope c.code
  bounded : ∀ n, c.code.SavesWithin n → n < σ.nextSlot

/-- A store whose scopes are those of units that have run. -/
structure Store.Lexical (ran : Nat → Code → Prop) (σ : Store) : Prop where
  /-- They have run in scopes that are there, -/
  there : ∀ s u, ran s u → s < σ.scopes.size ∧ ∀ n, u.Saves n → n < σ.nextSlot
  /-- and only they have saved something there. -/
  saved : ∀ s n v, σ.slot? s n = some v → ∃ u, ran s u ∧ u.Saves n
  /-- A scope lies in one where the function was made that has run in it, -/
  nested : ∀ s p u, σ.parent? s = some p → ran s u → ∃ w, ran p w ∧ w.Makes u
  /-- and where there is none around, what has run is a whole program. -/
  outermost : ∀ s u, σ.parent? s = none → ran s u → u.Lexical fun _ => False
  /-- What has run saves to no slot that those around it save to. -/
  apart : ∀ s t u w n, σ.Outward s t → s ≠ t → ran s u → ran t w → u.Saves n → ¬ w.Saves n
  functions : σ.Every (σ.Places ran)

/-- A frame in a scope that its function has run in. -/
structure Store.Runs (ran : Nat → Code → Prop) (σ : Store) (f : Frame) : Prop where
  here : ran f.scope f.closure.code
  shielded : f.closure.code.EveryUnit Code.Shielded
  bounded : ∀ n, f.closure.code.SavesWithin n → n < σ.nextSlot
  /-- What it makes does not save to slots of its scope or of those around. -/
  inner : ∀ d, f.closure.code.Makes d → σ.Clears ran f.scope d
  /-- Only a function that was made begins again. -/
  again : f.closure.code.Steady ∨ σ.Places ran f.closure

structure Machine.Lexical (ran : Nat → Code → Prop) (m : Machine) : Prop where
  store : m.store.Lexical ran
  functions : m.Every (m.store.Places ran)
  frames : ∀ f ∈ m.stack, m.store.Runs ran f

def Transition.Lexical (ran : Nat → Code → Prop) : Transition → Prop
  | .running m => m.Lexical ran
  | .finished σ _ => σ.Lexical ran
  | .raised m _ => m.store.Lexical ran

/-- What has run by now, the frames that go on included. -/
def Transition.record (ran : Nat → Code → Prop) (t : Transition) (s : Nat) (u : Code) : Prop :=
  ran s u ∨ ∃ f ∈ t.stack, f.scope = s ∧ f.closure.code = u

/-- A later store and what has run by then. In a scope that was there before, nothing else has run but code whose
slots are new. -/
structure Store.Onwards (ran ran' : Nat → Code → Prop) (σ τ : Store) : Prop where
  size : σ.scopes.size ≤ τ.scopes.size
  parents : ∀ s, s < σ.scopes.size → τ.parent? s = σ.parent? s
  nextSlot : σ.nextSlot ≤ τ.nextSlot
  keeps : ∀ s u, ran s u → ran' s u
  fresh : ∀ s u, s < σ.scopes.size → ran' s u → ran s u ∨ ∀ n, u.Saves n → σ.nextSlot ≤ n

/-- A whole program that begins on the way from one store to another, in a scope with none around. -/
structure Frame.Opens (σ τ : Store) (f : Frame) : Prop where
  begun : f.Begun σ τ
  outermost : τ.parent? f.scope = none
  whole : f.closure.code.Whole
  bounded : ∀ n, f.closure.code.SavesWithin n → n < τ.nextSlot

/-- How a frame comes about when there have been some others. -/
inductive Frame.Arises (ran : Nat → Code → Prop) (fs : List Frame) (σ τ : Store) (f : Frame) : Prop where
  | stays {g} : g ∈ fs → g.closure = f.closure → g.scope = f.scope → Arises ran fs σ τ f
  | called : f.Begun σ τ → τ.parent? f.scope = some f.closure.scope → σ.Places ran f.closure → Arises ran fs σ τ f
  | opens : f.Opens σ τ → Arises ran fs σ τ f

namespace Store

variable {ran ran' : Nat → Code → Prop} {σ τ : Store} {s t p : Nat} {c : Code} {f g : Frame}

/-- Scopes that are there keep their places. -/
theorem Onwards.outward (h : σ.Onwards ran ran' τ) (hσ : σ.Closed) (hs : s < σ.scopes.size) (ho : τ.Outward s t) :
    σ.Outward s t :=
  (Outward.iff_of_parents hσ.parents h.parents hs).mp ho

theorem Clears.onwards (h : σ.Clears ran s c) (ho : σ.Onwards ran ran' τ) (hσ : σ.Closed)
    (hs : s < σ.scopes.size) (hb : ∀ n, c.SavesWithin n → n < σ.nextSlot) : τ.Clears ran' s c := by
  intro t u n hout hr hn hu
  have hout' := ho.outward hσ hs hout
  rcases ho.fresh t u (Nat.lt_of_le_of_lt (hout'.le hσ.parents) hs) hr with hr | hnew
  · exact h t u n hout' hr hn hu
  · exact absurd (hb n hn) (Nat.not_lt.mpr (hnew n hu))

theorem Places.onwards {c : Closure} (h : σ.Places ran c) (ho : σ.Onwards ran ran' τ) (hσ : σ.Closed)
    (hl : σ.Lexical ran) : τ.Places ran' c := by
  obtain ⟨u, hu, hm⟩ := h.maker
  have hs := (hl.there _ _ hu).1
  exact ⟨⟨u, ho.keeps _ _ hu, hm⟩, h.shielded, h.cleared.onwards ho hσ hs h.bounded,
    fun n hn => Nat.lt_of_lt_of_le (h.bounded n hn) ho.nextSlot⟩

theorem Runs.onwards (h : σ.Runs ran f) (ho : σ.Onwards ran ran' τ) (hσ : σ.Closed) (hl : σ.Lexical ran) :
    τ.Runs ran' f where
  here := ho.keeps _ _ h.here
  shielded := h.shielded
  bounded n hn := Nat.lt_of_lt_of_le (h.bounded n hn) ho.nextSlot
  inner d hd := (h.inner d hd).onwards ho hσ (hl.there _ _ h.here).1 fun n hn => h.bounded n (hn.of_holds hd.holds)
  again := h.again.imp_right (·.onwards ho hσ hl)

theorem Runs.congr (h : σ.Runs ran g) (hc : g.closure = f.closure) (hs : g.scope = f.scope) : σ.Runs ran f where
  here := hc ▸ hs ▸ h.here
  shielded := hc ▸ h.shielded
  bounded := hc ▸ h.bounded
  inner d hd := hs ▸ h.inner d (hc ▸ hd)
  again := hc ▸ h.again

/-- What has run around a unit leaves alone what the unit makes as it does the unit, and so does the unit itself,
which is shielded. -/
theorem clears_inner {u d : Code} (hshield : u.Shielded) (hm : u.Makes d)
    (hself : ∀ w n, ran s w → d.SavesWithin n → w.Saves n → w = u)
    (hout : ∀ p, σ.parent? s = some p → σ.Clears ran p u) : σ.Clears ran s d := by
  intro t w n ho hr hn hw
  rcases Relation.ReflTransGen.cases_head ho with rfl | ⟨p, hp, ho⟩
  · obtain rfl := hself w n hr hn hw
    exact hshield d n hm hn hw
  · exact hout p hp t w n ho hr (hn.of_holds hm.holds) hw

/-- A function that a frame makes is in its proper place. -/
theorem Runs.makes {id line arity : Nat} {d : Code} (h : σ.Runs ran f) (hd : f.closure.code.Makes d) :
    σ.Places ran (f.closure.inner id f.scope line d arity) where
  maker := ⟨f.closure.code, h.here, hd⟩
  shielded u hu := h.shielded u (hd.holds.trans hu)
  cleared := h.inner d hd
  bounded n hn := h.bounded n (hn.of_holds hd.holds)

end Store

section

variable {ran : Nat → Code → Prop} {t : Transition} {f : Frame} {fs : List Frame} {scope : Nat} {saved : Option Nat}
  {around : Nat → Prop} {σ τ : Store}

theorem Frame.Arises.scope_or (h : f.Arises ran fs σ τ) : (∃ g ∈ fs, g.scope = f.scope) ∨ f.Begun σ τ := by
  cases h with
  | stays hg _ hs => exact .inl ⟨_, hg, hs⟩
  | called hb _ _ => exact .inr hb
  | opens hl => exact .inr hl.begun

theorem Transition.Every.store {P : Closure → Prop} (h : t.Every P) : t.store.Every P := by
  cases t with
  | running m => exact Machine.Every.store h
  | finished σ v => exact h
  | raised m f => exact h

theorem Transition.Every.mono {P Q : Closure → Prop} (h : t.Every P) (hp : ∀ c, P c → Q c) : t.Every Q := by
  cases t with
  | running m => exact Machine.Every.mono h hp
  | finished σ v => exact Store.Every.mono h hp
  | raised m f => exact Store.Every.mono h hp

theorem Transition.lexical_of (hs : t.store.Lexical ran) (he : t.Every (t.store.Places ran))
    (hf : ∀ f ∈ t.stack, t.store.Runs ran f) : t.Lexical ran := by
  cases t with
  | running m => exact ⟨hs, he, hf⟩
  | finished σ v => exact hs
  | raised m f => exact hs

theorem Transition.Lexical.store (h : t.Lexical ran) : t.store.Lexical ran := by
  cases t with
  | running m => exact Machine.Lexical.store h
  | finished σ v => exact h
  | raised m f => exact h

/-- What has begun since in a proper place leaves the scopes in order: it was made by what has run in the scope around,
or there is none and it is a whole program. -/
theorem Store.Lexical.onwards {ran' : Nat → Code → Prop} (hl : σ.Lexical ran) (hσ : σ.Closed)
    (ho : σ.Onwards ran ran' τ) (hthere : ∀ s u, ran' s u → s < τ.scopes.size ∧ ∀ n, u.Saves n → n < τ.nextSlot)
    (hsaved : ∀ s n v, τ.slot? s n = some v → ∃ u, ran' s u ∧ u.Saves n) (hf : τ.Every (σ.Places ran))
    (hnew : ∀ s u, ran' s u → ran s u ∨
      (∃ p w, τ.parent? s = some p ∧ ran p w ∧ w.Makes u ∧ σ.Clears ran p u ∧
        ∀ n, u.SavesWithin n → n < σ.nextSlot) ∨
      τ.parent? s = none ∧ u.Lexical fun _ => False) :
    τ.Lexical ran' := by
  refine ⟨hthere, hsaved, fun s p u hp hr => ?_, fun s u hp hr => ?_, ?_, hf.mono fun _ hc => hc.onwards ho hσ hl⟩
  · rcases hnew s u hr with hr | ⟨p', w, hp', hw, hmakes, -, -⟩ | ⟨hnone, -⟩
    · rw [ho.parents s (hl.there s u hr).1] at hp
      obtain ⟨w, hw, hmakes⟩ := hl.nested s p u hp hr
      exact ⟨w, ho.keeps _ _ hw, hmakes⟩
    · obtain rfl : p' = p := Option.some.inj (hp'.symm.trans hp)
      exact ⟨w, ho.keeps _ _ hw, hmakes⟩
    · rw [hnone] at hp
      cases hp
  · rcases hnew s u hr with hr | ⟨p, _, hp', _⟩ | ⟨-, hlex⟩
    · rw [ho.parents s (hl.there s u hr).1] at hp
      exact hl.outermost s u hp hr
    · rw [hp] at hp'
      cases hp'
    · exact hlex
  · intro s s' u w n hout hne hr hw hn hn'
    rcases hnew s u hr with hr | ⟨p, v, hp, hv, -, hcleared, hbound⟩ | ⟨hnone, -⟩
    · obtain ⟨hs, hlt⟩ := hl.there s u hr
      have hout' := ho.outward hσ hs hout
      rcases ho.fresh s' w (Nat.lt_of_le_of_lt (hout'.le hσ.parents) hs) hw with hw | hge
      · exact hl.apart s s' u w n hout' hne hr hw hn hn'
      · exact absurd (hlt n hn) (Nat.not_lt.mpr (hge n hn'))
    · rcases Relation.ReflTransGen.cases_head hout with rfl | ⟨p', hp', hout⟩
      · exact absurd rfl hne
      · obtain rfl : p = p' := Option.some.inj (hp.symm.trans hp')
        exact hcleared.onwards ho hσ (hl.there p v hv).1 hbound s' w n hout hw hn.within hn'
    · rcases Relation.ReflTransGen.cases_head hout with rfl | ⟨p, hp, -⟩
      · exact absurd rfl hne
      · rw [hnone] at hp
        cases hp

/-- Frames that come about in their proper places, each in a scope of its own, leave the scopes in order. -/
theorem Store.Lexical.goes (hl : σ.Lexical ran) (hσ : σ.Closed) (hfs : ∀ f ∈ fs, σ.Runs ran f)
    (ha : σ.After scope saved around t.store) (hsaved : ∀ n, saved = some n → ∃ u, ran scope u ∧ u.Saves n)
    (he : t.Every (σ.Places ran)) (hf : ∀ f ∈ t.stack, f.Arises ran fs σ t.store)
    (hu : ∀ f ∈ t.stack, ∀ g ∈ t.stack, f.scope = g.scope → f.closure = g.closure) :
    t.Lexical (t.record ran) := by
  have hthere : ∀ f ∈ fs, f.scope < σ.scopes.size := fun f hf => (hl.there _ _ (hfs f hf).here).1
  have hsame : ∀ s u, s < σ.scopes.size → t.record ran s u → ran s u := by
    rintro s u hs (hr | ⟨f, hft, rfl, rfl⟩)
    · exact hr
    · cases hf f hft with
      | stays hg hc hs => exact ((hfs _ hg).congr hc hs).here
      | called hb _ _ => exact absurd hs (Nat.not_lt.mpr hb.new)
      | opens hl => exact absurd hs (Nat.not_lt.mpr hl.begun.new)
  have ho : σ.Onwards ran (t.record ran) t.store :=
    ⟨ha.size, ha.parents, ha.nextSlot, fun _ _ hr => .inl hr, fun s u hs hr => .inl (hsame s u hs hr)⟩
  -- In a scope that is new only one function has run.
  have hone : ∀ f ∈ t.stack, σ.scopes.size ≤ f.scope → ∀ u, t.record ran f.scope u → u = f.closure.code := by
    rintro f hft hnew u (hr | ⟨g, hgt, hs, rfl⟩)
    · exact absurd (hl.there _ _ hr).1 (Nat.not_lt.mpr hnew)
    · rw [hu g hgt f hft hs]
  have hplaces : ∀ c, σ.Places ran c → t.store.Places (t.record ran) c := fun c hc => hc.onwards ho hσ hl
  have hruns : ∀ f ∈ t.stack, t.store.Runs (t.record ran) f := by
    intro f hft
    have hself : t.record ran f.scope f.closure.code := .inr ⟨f, hft, rfl, rfl⟩
    cases hf f hft with
    | stays hg hc hs => exact ((hfs _ hg).onwards ho hσ hl).congr hc hs
    | called hb hp hc =>
      refine ⟨hself, hc.shielded, (hplaces _ hc).bounded, fun d hd => ?_, .inr (hplaces _ hc)⟩
      refine Store.clears_inner hc.shielded.self hd (fun w _ hw _ _ => hone f hft hb.new w hw) fun p hp' => ?_
      obtain rfl : f.closure.scope = p := Option.some.inj (hp.symm.trans hp')
      exact (hplaces _ hc).cleared
    | opens hopen =>
      refine ⟨hself, hopen.whole.shielded, hopen.bounded, fun d hd => ?_, .inl hopen.whole.steady⟩
      refine Store.clears_inner hopen.whole.shielded.self hd (fun w _ hw _ _ => hone f hft hopen.begun.new w hw)
        fun p hp => ?_
      rw [hopen.outermost] at hp
      cases hp
  have hsound : t.store.Lexical (t.record ran) := by
    refine hl.onwards hσ ho ?_ (fun s n v hv => ?_) he.store ?_
    · rintro s u (hr | ⟨f, hft, rfl, rfl⟩)
      · obtain ⟨hs, hn⟩ := hl.there s u hr
        exact ⟨Nat.lt_of_lt_of_le hs ha.size, fun n hu => Nat.lt_of_lt_of_le (hn n hu) ha.nextSlot⟩
      · refine ⟨?_, fun n hn => (hruns f hft).bounded n hn.within⟩
        rcases (hf f hft).scope_or with ⟨g, hg, hs⟩ | hb
        · exact hs ▸ Nat.lt_of_lt_of_le (hthere _ hg) ha.size
        · exact hb.there
    · by_cases hsn : s = scope ∧ saved = some n
      · obtain ⟨rfl, hn⟩ := hsn
        obtain ⟨u, hr, hu⟩ := hsaved n hn
        exact ⟨u, .inl hr, hu⟩
      · rw [ha.slots s n fun hs hn => hsn ⟨hs, hn⟩] at hv
        obtain ⟨u, hr, hu⟩ := hl.saved s n v hv
        exact ⟨u, .inl hr, hu⟩
    · rintro s u (hr | ⟨f, hft, rfl, rfl⟩)
      · exact .inl hr
      · cases hf f hft with
        | stays hg hc hs => exact .inl ((hfs _ hg).congr hc hs).here
        | called hb hp hc =>
          obtain ⟨w, hw, hmakes⟩ := hc.maker
          exact .inr (.inl ⟨_, w, hp, hw, hmakes, hc.cleared, hc.bounded⟩)
        | opens hopen => exact .inr (.inr ⟨hopen.outermost, hopen.whole.lexical⟩)
  exact Transition.lexical_of hsound (he.mono hplaces) hruns

end

end MatchLang
