import MatchLang.Proofs.Grammar.Exactness
import MatchLang.Proofs.Grammar.Numbering
import MatchLang.Proofs.Links.Resolution
import MatchLang.Proofs.Lowering.Emission
import MatchLang.Proofs.Lowering.WellFormed

/-! Which programs can be compiled. Lowering a form comes to an end whatever it is, and is refused for
one of the calls in it if at all: every label that it makes it also attaches, once, and every name that it
stores has a slot. -/

namespace MatchLang

namespace Emitting

/-- From `s` to `t` the labels in the list have been attached. Labels that were there before stay as they
were, and all that have been made since are attached too. -/
structure Attaches (ls : List Nat) (s t : Emitting) : Prop where
  length_le : s.unit.labels.length ≤ t.unit.labels.length
  kept : ∀ i < s.unit.labels.length, i ∉ ls → t.unit.labels[i]? = s.unit.labels[i]?
  attached : ∀ i < t.unit.labels.length, i ∈ ls ∨ s.unit.labels.length ≤ i →
    ∃ target line, t.unit.labels[i]? = some ⟨some target, line⟩

/-- The labels in the list have been made, each of them once, and wait to be attached. -/
structure Awaits (ls : List Nat) (s : Emitting) : Prop where
  nodup : ls.Nodup
  unattached : ∀ i ∈ ls, ∃ line, s.unit.labels[i]? = some ⟨none, line⟩

/-- From `s` to `t` the labels in the list have been made. -/
structure Opens (ls : List Nat) (s t : Emitting) : Prop where
  labels : s.unit.labels <+: t.unit.labels
  mem_iff : ∀ i, i ∈ ls ↔ s.unit.labels.length ≤ i ∧ i < t.unit.labels.length
  awaits : t.Awaits ls

variable {s t r : Emitting} {ls ls' : List Nat}

theorem Awaits.lt {i : Nat} (h : s.Awaits ls) (hi : i ∈ ls) : i < s.unit.labels.length := by
  obtain ⟨line, hl⟩ := h.unattached i hi
  exact (List.getElem?_eq_some_iff.mp hl).1

theorem Awaits.sublist (h : s.Awaits ls) (hs : ls'.Sublist ls) : s.Awaits ls' :=
  ⟨h.nodup.sublist hs, fun i hi => h.unattached i (hs.subset hi)⟩

theorem Attaches.of_eq (h : t.unit.labels = s.unit.labels) : Attaches [] s t := by
  refine ⟨by rw [h], fun _ _ _ => by rw [h], fun i hi hor => ?_⟩
  rw [h] at hi
  rcases hor with hm | hle
  · cases hm
  · omega

theorem Attaches.trans (h : Attaches ls s t) (h' : Attaches ls' t r) :
    Attaches (ls ++ ls') s r where
  length_le := h.length_le.trans h'.length_le
  kept i hi hn := by
    rw [List.mem_append, not_or] at hn
    rw [h'.kept i (Nat.lt_of_lt_of_le hi h.length_le) hn.2, h.kept i hi hn.1]
  attached i hi hor := by
    by_cases hm : i ∈ ls' ∨ t.unit.labels.length ≤ i
    · exact h'.attached i hi hm
    · obtain ⟨hnot, hlt⟩ := not_or.mp hm
      have hlt : i < t.unit.labels.length := Nat.not_le.mp hlt
      rw [h'.kept i hlt hnot]
      refine h.attached i hlt ?_
      rcases hor with hmem | hle
      · exact .inl ((List.mem_append.mp hmem).resolve_right hnot)
      · exact .inr hle

/-- Where one stretch attaches labels, another may go before that attaches none of them. -/
theorem Attaches.before (h : Attaches [] s t) (h' : Attaches ls t r) : Attaches ls s r :=
  h.trans h'

/-- Labels that wait still do after others have been attached. -/
theorem Awaits.after (h : s.Awaits ls) (ha : Attaches ls' s t) (hd : ∀ i ∈ ls, i ∉ ls') :
    t.Awaits ls where
  nodup := h.nodup
  unattached i hi := by
    rw [ha.kept i (h.lt hi) (hd i hi)]
    exact h.unattached i hi

theorem Attaches.congr (h : Attaches ls s t) (hm : ∀ i, i ∈ ls ↔ i ∈ ls') : Attaches ls' s t where
  length_le := h.length_le
  kept i hi hn := h.kept i hi fun hmem => hn ((hm i).mp hmem)
  attached i hi hor := h.attached i hi (hor.imp_left (hm i).mpr)

theorem Opens.refl (s : Emitting) : Opens [] s s where
  labels := List.prefix_refl _
  mem_iff i := by simp
  awaits := ⟨.nil, nofun⟩

theorem Opens.trans (h : Opens ls s t) (h' : Opens ls' t r) : Opens (ls ++ ls') s r where
  labels := h.labels.trans h'.labels
  mem_iff i := by
    have hle := h.labels.length_le
    have hle' := h'.labels.length_le
    rw [List.mem_append, h.mem_iff, h'.mem_iff]
    omega
  awaits := by
    refine ⟨List.nodup_append.mpr ⟨h.awaits.nodup, h'.awaits.nodup, ?_⟩, fun i hi => ?_⟩
    · rintro i hi j hj rfl
      have hlt := ((h.mem_iff i).mp hi).2
      have hle := ((h'.mem_iff i).mp hj).1
      omega
    · rcases List.mem_append.mp hi with hi | hi
      · obtain ⟨line, hl⟩ := h.awaits.unattached i hi
        obtain ⟨rest, hrest⟩ := h'.labels
        exact ⟨line, by rw [← hrest, List.getElem?_append_left (h.awaits.lt hi), hl]⟩
      · exact h'.awaits.unattached i hi

/-- What has been opened and then attached is closed. -/
theorem Opens.closes (h : Opens ls s t) (ha : Attaches ls t r) : Attaches [] s r where
  length_le := h.labels.length_le.trans ha.length_le
  kept i hi _ := by
    have hn : i ∉ ls := fun hm => Nat.not_lt.mpr ((h.mem_iff i).mp hm).1 hi
    rw [ha.kept i (Nat.lt_of_lt_of_le hi h.labels.length_le) hn]
    obtain ⟨rest, hrest⟩ := h.labels
    rw [← hrest, List.getElem?_append_left hi]
  attached i hi hor := by
    have hle := hor.resolve_left List.not_mem_nil
    refine ha.attached i hi ?_
    by_cases hlt : i < t.unit.labels.length
    · exact .inl ((h.mem_iff i).mpr ⟨hle, hlt⟩)
    · exact .inr (Nat.not_lt.mp hlt)

/-- Nothing is left open where all that has been made since the beginning of a unit is attached. -/
theorem Attaches.finish (h : Attaches [] s t) (hs : s.unit.labels = []) :
    ∃ code, t.unit.finish = .ok code := by
  have hall : ∀ (index : Nat) (ps : List LabelPlace),
      (∀ p ∈ ps, ∃ target line, p = ⟨some target, line⟩) →
      ∃ ts, Builder.targetsFrom index ps = .ok ts := by
    intro index ps hps
    induction ps generalizing index with
    | nil => exact ⟨[], rfl⟩
    | cons p ps ih =>
      obtain ⟨⟨target, line, rfl⟩, hrest⟩ := List.forall_mem_cons.mp hps
      obtain ⟨ts, hts⟩ := ih (index + 1) hrest
      exact ⟨target :: ts, by simp only [Builder.targetsFrom, hts, Except.map]⟩
  have hps : ∀ p ∈ t.unit.labels, ∃ target line, p = ⟨some target, line⟩ := by
    intro p hp
    obtain ⟨i, hi, rfl⟩ := List.mem_iff_getElem.mp hp
    obtain ⟨target, line, he⟩ := h.attached i hi (.inr (by simp [hs]))
    rw [List.getElem?_eq_getElem hi, Option.some.injEq] at he
    exact ⟨target, line, he⟩
  obtain ⟨ts, hts⟩ := hall 0 t.unit.labels hps
  exact ⟨.mk t.unit.instrs.toList ts, by simp only [Builder.finish, hts, Except.map]⟩

end Emitting

/-- An emitter comes to an end, and if it is refused then for one of the calls in the list; else all of
them are formed as they should be. -/
def Emitter.Tries {α : Type} (x : Emitter α) (s : Emitting) (cs : List WrittenCall)
    (P : α → Emitting → Prop) : Prop :=
  (∃ a t, x.run s = .ok (a, t) ∧ P a t ∧ ∀ c ∈ cs, c.Formed) ∨
    ∃ e, x.run s = .error e ∧ ∃ c ∈ cs, c.Refused e.failure

/-- An emitter for a form that leaves no label open. -/
def Emitter.Closes (x : Emitter Unit) (cs : List WrittenCall) : Prop :=
  ∀ s : Emitting, x.Tries s cs fun _ t => s.Attaches [] t

namespace Emitter

variable {α β : Type} {x : Emitter α} {f : α → Emitter β} {s : Emitting}
  {cs ds : List WrittenCall} {P : α → Emitting → Prop} {Q : β → Emitting → Prop}

theorem Tries.of_ok {a : α} {t : Emitting} (h : x.run s = .ok (a, t)) (hp : P a t) :
    x.Tries s [] P :=
  .inl ⟨a, t, h, hp, nofun⟩

theorem Tries.bind (hx : x.Tries s cs P) (hf : ∀ a t, P a t → (f a).Tries t ds Q) :
    (x >>= f).Tries s (cs ++ ds) Q := by
  rcases hx with ⟨a, t, hr, hp, hcs⟩ | ⟨e, he, c, hc, href⟩
  · have hrun : (x >>= f).run s = (f a).run t := by
      rw [StateT.run_bind, hr]
      rfl
    rcases hf a t hp with ⟨b, r, hr', hq, hds⟩ | ⟨e, he, c, hc, href⟩
    · exact .inl ⟨b, r, hrun.trans hr', hq, List.forall_mem_append.mpr ⟨hcs, hds⟩⟩
    · exact .inr ⟨e, hrun.trans he, c, List.mem_append_right _ hc, href⟩
  · refine .inr ⟨e, ?_, c, List.mem_append_left _ hc, href⟩
    rw [StateT.run_bind, he]
    rfl

/-- An emitter without calls, and then one with some. -/
theorem Tries.before (hx : x.Tries s [] P) (hf : ∀ a t, P a t → (f a).Tries t cs Q) :
    (x >>= f).Tries s cs Q :=
  hx.bind hf

/-- In front of an emitter there may be one that is never refused. -/
theorem Tries.seq {a : α} {t : Emitting} (hx : x.run s = .ok (a, t)) (hf : (f a).Tries t cs Q) :
    (x >>= f).Tries s cs Q := by
  have hrun : (x >>= f).run s = (f a).run t := by
    rw [StateT.run_bind, hx]
    rfl
  rwa [Tries, hrun]

theorem Tries.imp {P' : α → Emitting → Prop} (hx : x.Tries s cs P)
    (h : ∀ a t, P a t → P' a t) : x.Tries s cs P' := by
  rcases hx with ⟨a, t, hr, hp, hcs⟩ | he
  · exact .inl ⟨a, t, hr, h a t hp, hcs⟩
  · exact .inr he

/-- It does not matter in which order the calls are listed. -/
theorem Tries.perm (hx : x.Tries s cs P) (h : cs.Perm ds) : x.Tries s ds P := by
  rcases hx with ⟨a, t, hr, hp, hcs⟩ | ⟨e, he, c, hc, href⟩
  · exact .inl ⟨a, t, hr, hp, fun c hc => hcs c (h.mem_iff.mpr hc)⟩
  · exact .inr ⟨e, he, c, h.subset hc, href⟩

/-- A call that is formed as it should be can be listed too. -/
theorem Tries.formed {c : WrittenCall} (hx : x.Tries s cs P) (h : c.Formed) :
    x.Tries s (c :: cs) P := by
  rcases hx with ⟨a, t, hr, hp, hcs⟩ | ⟨e, he, d, hd, href⟩
  · exact .inl ⟨a, t, hr, hp, List.forall_mem_cons.mpr ⟨h, hcs⟩⟩
  · exact .inr ⟨e, he, d, List.mem_cons_of_mem _ hd, href⟩

theorem Tries.refused {c : WrittenCall} {failure : CompileFailure} {line : Nat}
    (h : c.Refused failure) (hc : c ∈ cs) : (reject failure line : Emitter α).Tries s cs P :=
  .inr ⟨⟨failure, line⟩, rfl, c, hc, h⟩

theorem Closes.of_eq {x : Emitter Unit}
    (h : ∀ s, ∃ t, x.run s = .ok ((), t) ∧ t.unit.labels = s.unit.labels) : x.Closes [] := by
  intro s
  obtain ⟨t, hr, ht⟩ := h s
  exact .of_ok hr (.of_eq ht)

theorem Closes.bind {x y : Emitter Unit} (hx : x.Closes cs) (hy : y.Closes ds) :
    (do x; y : Emitter Unit).Closes (cs ++ ds) :=
  fun s => (hx s).bind fun _ t ht => (hy t).imp fun _ _ hr => ht.trans hr

theorem Closes.before {x y : Emitter Unit} (hx : x.Closes []) (hy : y.Closes cs) :
    (do x; y : Emitter Unit).Closes cs :=
  hx.bind hy

theorem Closes.perm {x : Emitter Unit} (hx : x.Closes cs) (h : cs.Perm ds) : x.Closes ds :=
  fun s => (hx s).perm h

end Emitter

open Emitter

theorem emit_closes (line : Nat) (op : Op) : (emit line op).Closes [] :=
  .of_eq fun _ => ⟨_, rfl, rfl⟩

theorem emitCons_closes (line : Nat) : (emitCons line).Closes [] :=
  (emit_closes _ _).bind (emit_closes _ _)

theorem emitItems_closes (line : Nat) (slots : List Slot) : (emitItems line slots).Closes [] := by
  induction slots with
  | nil => exact .of_eq fun s => ⟨s, rfl, rfl⟩
  | cons slot slots ih => exact ih.bind ((emit_closes _ _).bind (emitCons_closes line))

/-- A unit of its own is finished with all its labels attached. -/
theorem inOwnUnit_tries {build : Emitter Unit} {cs : List WrittenCall} (h : build.Closes cs)
    (s : Emitting) :
    (inOwnUnit build).Tries s cs fun _ t => t.unit.labels = s.unit.labels := by
  refine Tries.seq (a := s) rfl (Tries.seq (a := ()) rfl ?_)
  rw [← List.append_nil cs]
  refine (h { s with unit := .empty }).bind fun _ t ht => Tries.seq (a := t) rfl ?_
  obtain ⟨code, hc⟩ := ht.finish rfl
  have hlift : (liftM t.unit.finish : Emitter Code).run t = .ok (code, t) := by
    rw [hc]
    rfl
  exact Tries.seq hlift (.of_ok rfl rfl)

theorem attach_tries {label line : Nat} {s : Emitting} (h : s.Awaits [label]) :
    (attach label line).Tries s [] fun _ t => s.Attaches [label] t := by
  obtain ⟨created, hl⟩ := h.unattached label List.mem_cons_self
  have hlt := h.lt List.mem_cons_self
  have hb : s.unit.attach label line =
      .ok ⟨s.unit.instrs, s.unit.labels.set label ⟨some s.unit.instrs.size, created⟩⟩ := by
    simp only [Builder.attach, hl]
  have hlift : (liftM (s.unit.attach label line) : Emitter Builder).run s =
      .ok (⟨s.unit.instrs, s.unit.labels.set label ⟨some s.unit.instrs.size, created⟩⟩, s) := by
    rw [hb]
    rfl
  refine Tries.seq (a := s) (t := s) rfl (Tries.seq hlift (.of_ok rfl ?_))
  refine ⟨?_, fun i hi hn => ?_, fun i hi hor => ?_⟩
  · exact Nat.le_of_eq List.length_set.symm
  · exact List.getElem?_set_ne (Ne.symm (List.ne_of_not_mem_cons hn))
  · rcases hor with hm | hle
    · rw [List.mem_singleton] at hm
      subst hm
      exact ⟨_, _, List.getElem?_set_self hlt⟩
    · have hi : i < (s.unit.labels.set label ⟨some s.unit.instrs.size, created⟩).length := hi
      rw [List.length_set] at hi
      exact absurd hi (Nat.not_lt.mpr hle)

section

variable {l : Links} {publishAt : Option (List String)}

theorem storeName_closes {id line : Nat} {name : String} (h : ∃ slot, l.get? id = some slot) :
    (storeName l publishAt id name line).Closes [] := by
  obtain ⟨slot, hs⟩ := h
  unfold storeName
  rw [hs]
  cases publishAt with
  | none => exact emit_closes _ _
  | some path => exact (emit_closes _ _).bind ((emit_closes _ _).bind (emit_closes _ _))

/-- Every name in a list of leaves has a slot. -/
def Links.Has (l : Links) (xs : List Leaf) : Prop :=
  ∀ x ∈ xs, ∃ slot, l.get? x.id = some slot

theorem Links.has_append {xs ys : List Leaf} : l.Has (xs ++ ys) ↔ l.Has xs ∧ l.Has ys :=
  List.forall_mem_append

theorem Group.Declares.has {g : Group} {xs : List Leaf} {a b : Nat} (h : g.Declares l xs a b) :
    l.Has xs := by
  intro x hx
  obtain ⟨slot, hs, _⟩ := h.leaf x hx
  exact ⟨slot, hs⟩

mutual

theorem storePattern_closes (p : Pattern) (line : Nat) (h : l.Has p.leaves) :
    (storePattern l publishAt p line).Closes [] := by
  match p with
  | .wildcard | .literal _ _ => exact emit_closes _ _
  | .name id n nameLine => exact storeName_closes (h _ List.mem_cons_self)
  | .list items => exact storeItems_closes items line h
  | .type n params => exact (emit_closes _ _).bind (storePatterns_closes params n.line h)

theorem storeItems_closes (ps : List Pattern) (line : Nat) (h : l.Has (patternsLeaves ps)) :
    (storeItems l publishAt ps line).Closes [] := by
  match ps with
  | [] => exact emit_closes _ _
  | p :: ps =>
    rw [patternsLeaves, Links.has_append] at h
    exact (emit_closes _ _).bind
      ((storePattern_closes p line h.1).bind (storeItems_closes ps line h.2))

theorem storePatterns_closes (ps : List Pattern) (line : Nat) (h : l.Has (patternsLeaves ps)) :
    (storePatterns l publishAt ps line).Closes [] := by
  match ps with
  | [] => exact .of_eq fun s => ⟨s, rfl, rfl⟩
  | p :: ps =>
    rw [patternsLeaves, Links.has_append] at h
    exact (storePattern_closes p line h.1).bind (storePatterns_closes ps line h.2)

end

end

/-- The arms of a choice are taken from its list, or something is wrong with one of them. -/
theorem armsOf_tries (cases : List Block) :
    (∃ arms, armsOf cases = .ok arms ∧ arms.length = cases.length ∧ ∀ b ∈ cases, b.IsArm) ∨
      ∃ e, armsOf cases = .error e ∧ ∀ c : WrittenCall, c.callee.isMatchName = true →
        ∀ scrutinee line more, c.args = [scrutinee, .list (more ++ cases) line] →
          c.Refused e.failure := by
  induction cases with
  | nil => exact .inl ⟨[], rfl, rfl, List.forall_mem_nil _⟩
  | cons b bs ih =>
    have hmem : ∀ more : List Block, b ∈ more ++ b :: bs := fun more => by simp
    cases b with
    | bind p value isPublic rest =>
      refine .inr ?_
      have hrefused : ∀ c : WrittenCall, c.callee.isMatchName = true →
          ∀ scrutinee line more,
            c.args = [scrutinee, .list (more ++ .bind p value isPublic rest :: bs) line] →
            c.Refused .matchCaseNotFunction :=
        fun c hm scrutinee line more ha =>
          .caseNotFunction hm ha (hmem more) fun _ _ _ h => Block.noConfusion h
      cases hv : (Block.bind p value isPublic rest).value with
      | function params body line =>
        exact ⟨⟨.matchCaseNotFunction, line⟩, by simp [armsOf, hv, Block.hasBindings], hrefused⟩
      | _ => exact ⟨⟨.matchCaseNotFunction, _⟩, by simp only [armsOf, hv]; rfl, hrefused⟩
    | result e =>
      cases e with
      | function params body line =>
        rcases params with _ | ⟨pattern, _ | ⟨second, patterns⟩⟩
        · exact .inr ⟨⟨.matchCaseArity, line⟩, rfl, fun c hm scrutinee caseLine more ha =>
            .caseArity hm ha (hmem more) (by simp)⟩
        · rcases ih with ⟨arms, ha, hl, harms⟩ | ⟨e, he, href⟩
          · refine .inl ⟨⟨pattern, line⟩ :: arms, ?_, by simp [hl],
              List.forall_mem_cons.mpr ⟨⟨pattern, body, line, rfl⟩, harms⟩⟩
            simp [armsOf, Block.value, Block.hasBindings, ha, Except.map]
          · refine .inr ⟨e, ?_, fun c hm scrutinee caseLine more ha => ?_⟩
            · simp [armsOf, Block.value, Block.hasBindings, he, Except.map]
            · exact href c hm scrutinee caseLine
                (more ++ [.result (.function [pattern] body line)]) (by simp [ha])
        · exact .inr ⟨⟨.matchCaseArity, line⟩, rfl, fun c hm scrutinee caseLine more ha =>
            .caseArity hm ha (hmem more) (by simp)⟩
      | _ =>
        refine .inr ⟨⟨.matchCaseNotFunction, _⟩, rfl, fun c hm scrutinee caseLine more ha => ?_⟩
        refine .caseNotFunction hm ha (hmem more) fun _ _ _ h => ?_
        cases h

theorem freshLabel_opens (line : Nat) (s : Emitting) :
    ∃ label t, (freshLabel line).run s = .ok (label, t) ∧ s.Opens [label] t := by
  refine ⟨_, _, rfl, List.prefix_append _ _, fun i => ?_, by simp, ?_⟩
  · simp only [List.mem_singleton, List.length_append, List.length_singleton]
    omega
  · exact List.forall_mem_singleton.mpr ⟨line, by simp⟩

theorem armLabels_opens (arms : List Arm) (s : Emitting) :
    ∃ labels t, (armLabels arms).run s = .ok (labels, t) ∧ labels.length = arms.length ∧
      s.Opens labels t := by
  induction arms generalizing s with
  | nil => exact ⟨[], s, rfl, rfl, .refl s⟩
  | cons a arms ih =>
    obtain ⟨label, t, hr, ho⟩ := freshLabel_opens a.line s
    obtain ⟨labels, r, hr', hl, ho'⟩ := ih t
    refine ⟨label :: labels, r, ?_, by rw [List.length_cons, List.length_cons, hl], ho.trans ho'⟩
    rw [armLabels, StateT.run_bind, hr]
    show ((armLabels arms >>= fun labels => pure (label :: labels)) : Emitter (List Nat)).run t = _
    rw [StateT.run_bind, hr']
    rfl

theorem emitTests_closes (arms : List Arm) (labels : List Nat) :
    (emitTests arms labels).Closes [] := by
  induction arms generalizing labels with
  | nil => exact .of_eq fun s => ⟨s, rfl, rfl⟩
  | cons a arms ih =>
    cases labels with
    | nil => exact .of_eq fun s => ⟨s, rfl, rfl⟩
    | cons label labels => exact (emit_closes _ _).bind ((emit_closes _ _).bind (ih labels))

section

variable {l : Links} {callee scrutinee : Expr} {cases : List Block} {args : List Expr}
  {line caseLine : Nat} {allowTail : Bool}

/-- The labels of a choice are all attached behind its arms. -/
theorem choice_closes {test : Emitter Unit} {arms : List Arm} {cs ds : List WrittenCall}
    (htest : test.Closes cs)
    (harms : ∀ (labels : List Nat) (done : Nat) (s : Emitting), labels.length = arms.length →
      s.Awaits labels →
        (lowerArms l cases labels done allowTail).Tries s ds fun _ t => s.Attaches labels t) :
    (do
      test
      let done ← freshLabel line
      let labels ← armLabels arms
      emitTests arms labels
      emit line (.fail noMatch)
      lowerArms l cases labels done allowTail
      attach done line
      emit line .nothing : Emitter Unit).Closes (cs ++ ds) := by
  intro s
  refine (htest s).bind fun _ t ht => ?_
  obtain ⟨done, u, hu, hdone⟩ := freshLabel_opens line t
  obtain ⟨labels, v, hv, hl, hopens⟩ := armLabels_opens arms u
  have ho : t.Opens (done :: labels) v := hdone.trans hopens
  refine Tries.seq hu (Tries.seq hv ?_)
  refine (emitTests_closes arms labels v).before fun _ w hvw => ?_
  refine (emit_closes line (.fail noMatch) w).before fun _ x hwx => ?_
  have hvx := hvw.trans hwx
  have hlabels : x.Awaits labels :=
    (ho.awaits.sublist (List.sublist_cons_self done labels)).after hvx nofun
  rw [← List.append_nil ds]
  refine (harms labels done x hl hlabels).bind fun _ y hxy => ?_
  have hvy := hvx.trans hxy
  have hend : y.Awaits [done] := by
    refine (ho.awaits.sublist (List.singleton_sublist.mpr List.mem_cons_self)).after hvy ?_
    intro i hi
    rw [List.mem_singleton.mp hi]
    exact (List.nodup_cons.mp ho.awaits.nodup).1
  refine (attach_tries hend).before fun _ z hyz => ?_
  refine (emit_closes line .nothing z).imp fun _ r hzr => ?_
  have hall := hvy.trans (hyz.trans hzr)
  refine ht.before (ho.closes (hall.congr fun i => ?_))
  simp [or_comm]

/-- A choice without its two arguments is refused. -/
theorem choice_refused (hm : callee.isMatchName = true)
    (h : ∀ scrutinee cases caseLine, args ≠ [scrutinee, .list cases caseLine]) :
    (lowerExpr l (.call callee args line) allowTail).Closes
      ((Expr.call callee args line).calls (.value allowTail)) := by
  intro s
  unfold lowerExpr
  rw [if_pos hm]
  rcases args with _ | ⟨scrutinee, _ | ⟨e, _ | ⟨third, more⟩⟩⟩
  · exact Tries.refused (.argCount hm (by simp)) mem_calls
  · exact Tries.refused (.argCount hm (by simp)) mem_calls
  · cases e with
    | list _ _ => exact absurd rfl (h _ _ _)
    | _ =>
      refine Tries.refused (.casesNotList hm rfl ?_) mem_calls
      exact fun _ _ he => Expr.noConfusion he
  · cases e <;> exact Tries.refused (.argCount hm (by simp)) mem_calls

/-- A choice is refused for one of its arms, or for a call inside. -/
theorem choice_of_arms (hm : callee.isMatchName = true)
    (hs : (lowerExpr l scrutinee false).Closes (scrutinee.calls (.value false)))
    (harms : (∀ b ∈ cases, b.IsArm) → ∀ (labels : List Nat) (done : Nat) (s : Emitting),
      labels.length = cases.length → s.Awaits labels →
        (lowerArms l cases labels done allowTail).Tries s (blocksCalls cases (.arm allowTail))
          fun _ t => s.Attaches labels t) :
    (lowerExpr l (.call callee [scrutinee, .list cases caseLine] line) allowTail).Closes
      ((Expr.call callee [scrutinee, .list cases caseLine] line).calls (.value allowTail)) := by
  intro s
  unfold lowerExpr
  rw [if_pos hm, calls_choice hm]
  rcases armsOf_tries cases with ⟨arms, ha, hlen, hall⟩ | ⟨e, he, href⟩
  · have hlift : (liftM (armsOf cases) : Emitter (List Arm)).run s = .ok (arms, s) := by
      rw [ha]
      rfl
    have hself : callee.isSelf = true → allowTail = true := by
      cases callee with
      | self _ => cases hm
      | _ => exact fun h => absurd h Bool.false_ne_true
    refine Tries.formed (Tries.seq hlift ?_) ⟨hself, fun _ => ⟨_, _, _, rfl, hall⟩⟩
    exact choice_closes hs (fun labels done s hl => harms hall labels done s (hl.trans hlen)) s
  · have hlift : (liftM (armsOf cases) : Emitter (List Arm)).run s = .error e := by
      rw [he]
      rfl
    refine .inr ⟨e, ?_, _, List.mem_cons_self, href _ hm scrutinee caseLine [] rfl⟩
    rw [StateT.run_bind, hlift]
    rfl

/-- The dot can be called where it is the last thing to do. -/
theorem restart_closes {selfLine : Nat} (hargs : (lowerArgs l args).Closes (exprsCalls args [])) :
    (lowerExpr l (.call (.self selfLine) args line) allowTail).Closes
      ((Expr.call (.self selfLine) args line).calls (.value allowTail)) := by
  have hcalls : (Expr.call (.self selfLine) args line).calls (.value allowTail) =
      { callee := .self selfLine, args, isLast := allowTail } :: exprsCalls args [] := rfl
  unfold lowerExpr
  rw [hcalls]
  cases allowTail with
  | true =>
    intro s
    refine Tries.formed (((hargs.bind (emit_closes _ _)).perm ?_) s) ⟨fun _ => rfl, fun h => absurd h Bool.false_ne_true⟩
    rw [List.append_nil]
  | false =>
    have href : WrittenCall.Refused { callee := .self selfLine, args, isLast := false }
        .illegalTailCall := .restart rfl rfl
    have hreject : (reject .illegalTailCall line : Emitter Unit).Closes
        [{ callee := .self selfLine, args, isLast := false }] :=
      fun s => Tries.refused href List.mem_cons_self
    exact (hargs.bind hreject).perm List.perm_append_comm

theorem call_closes (hm : callee.isMatchName = false) (hself : callee.isSelf = false)
    (hc : (lowerExpr l callee false).Closes (callee.calls (.value false)))
    (hargs : (lowerArgs l args).Closes (exprsCalls args [])) :
    (lowerExpr l (.call callee args line) allowTail).Closes
      ((Expr.call callee args line).calls (.value allowTail)) := by
  have hformed : WrittenCall.Formed { callee, args, isLast := allowTail } :=
    ⟨fun h => absurd h (by simp [hself]), fun h => absurd h (by simp [hm])⟩
  intro s
  unfold lowerExpr
  rw [calls_call hm]
  simp only [hm]
  refine Tries.formed ?_ hformed
  have hperm : (exprsCalls args [] ++ (callee.calls (.value false) ++ [])).Perm
      (callee.calls (.value false) ++ exprsCalls args []) := by
    rw [List.append_nil]
    exact List.perm_append_comm
  have hall := ((hargs.bind (hc.bind (emit_closes line (.call args.length)))).perm hperm) s
  cases callee with
  | self _ => cases hself
  | _ => exact hall

end

mutual

/-- Lowering an expression comes to an end, or is refused for a call in it. -/
theorem lowerExpr_closes {l : Links} (e : Expr) (allowTail : Bool) {own : Nat → Prop}
    {gs : List Group} {a b : Nat} (hl : ExprLinks l e own gs a b) (hs : e.Shaped) :
    (lowerExpr l e allowTail).Closes (e.calls (.value allowTail)) := by
  match e with
  | .call callee args line =>
    by_cases hm : callee.isMatchName = true
    · simp only [ExprLinks, if_pos hm] at hl
      obtain ⟨m, _, hargs⟩ := hl
      by_cases ha : ∃ scrutinee cases caseLine, args = [scrutinee, .list cases caseLine]
      · obtain ⟨scrutinee, cases, caseLine, rfl⟩ := ha
        simp only [ChoiceLinks, CasesLinks] at hargs
        obtain ⟨m₁, m₂, hlink, hcases, _⟩ := hargs
        exact choice_of_arms hm (lowerExpr_closes scrutinee false hlink hs.2.1)
          fun harms labels done s hn hw =>
            lowerArms_tries cases done allowTail hcases hs.2.2.1 harms hn hw
      · exact choice_refused hm fun scrutinee cases caseLine he => ha ⟨_, _, _, he⟩
    · have hm : callee.isMatchName = false := by simpa using hm
      simp only [ExprLinks, hm] at hl
      obtain ⟨m, hc, hargs⟩ := hl
      have hes := lowerArgs_closes args hargs hs.2
      cases hself : callee.isSelf with
      | true =>
        cases callee with
        | self selfLine => exact restart_closes hes
        | _ => cases hself
      | false =>
        have hshaped : callee.Shaped := hs.1.resolve_left (by simp [hself])
        exact call_closes hm hself (lowerExpr_closes callee false hc hshaped) hes
  | .function params body line =>
    rw [exprLinks_function] at hl
    obtain ⟨_, own', g₁, g₂, m₁, m₂, h₁, h₂, _, hb⟩ := hl
    have hc : (do storePatterns l none params line; lowerBlock l body true : Emitter Unit).Closes
        (body.calls (.value true)) :=
      (storePatterns_closes params line h₁.has).bind
        (lowerBlock_closes body true h₂.has hb hs.2)
    unfold lowerExpr
    rw [calls_function]
    intro s
    rw [← List.append_nil (body.calls _)]
    exact (inOwnUnit_tries hc s).bind fun code t ht =>
      (emit_closes _ _ t).imp fun _ r hr => (Emitting.Attaches.of_eq ht).trans hr
  | .list elements line =>
    rw [ExprLinks] at hl
    have hs : blocksShaped elements := hs
    unfold lowerExpr
    rw [calls_list]
    split
    · exact (emit_closes _ _).bind (lowerPure_closes elements line hl hs)
    · intro s
      rw [← List.append_nil (blocksCalls _ _)]
      refine (lowerItems_tries elements line hl hs s).bind fun slots t ht => ?_
      exact ((emit_closes _ _).bind (emitItems_closes line slots) t).imp fun _ r hr => ht.trans hr
  | .literal value line =>
    unfold lowerExpr
    exact emit_closes _ _
  | .name n =>
    unfold lowerExpr
    exact emit_closes _ _
  | .self line => exact hs.elim
termination_by sizeOf e

theorem lowerArgs_closes {l : Links} (es : List Expr) {own : Nat → Prop}
    {gs : List Group} {a b : Nat} (hl : ArgsLinks l es own gs a b) (hs : exprsShaped es) :
    (lowerArgs l es).Closes (exprsCalls es []) := by
  match es with
  | [] => exact .of_eq fun s => ⟨s, rfl, rfl⟩
  | e :: es =>
    rw [ArgsLinks] at hl
    obtain ⟨m, he, hes⟩ := hl
    unfold lowerArgs
    rw [exprsCalls]
    exact ((lowerArgs_closes es hes hs.2).bind (lowerExpr_closes e false he hs.1)).perm
      List.perm_append_comm
termination_by sizeOf es

theorem lowerPure_closes {l : Links} (bs : List Block) (line : Nat) {own : Nat → Prop}
    {gs : List Group} {a b : Nat} (hl : ElementsLinks l bs own gs a b) (hs : blocksShaped bs) :
    (lowerPure l bs line).Closes (blocksCalls bs (.value false)) := by
  match bs with
  | [] => exact .of_eq fun s => ⟨s, rfl, rfl⟩
  | e :: es =>
    rw [elementsLinks_cons] at hl
    obtain ⟨m, ⟨g, m', hg, _, he⟩, hes⟩ := hl
    unfold lowerPure
    rw [blocksCalls]
    refine ((lowerPure_closes es line hes hs.2).bind
      ((lowerBlock_closes e false hg.has he hs.1).bind (emitCons_closes line))).perm ?_
    rw [List.append_nil]
    exact List.perm_append_comm
termination_by sizeOf bs

theorem lowerItems_tries {l : Links} (bs : List Block) (line : Nat) {own : Nat → Prop}
    {gs : List Group} {a b : Nat} (hl : ElementsLinks l bs own gs a b) (hs : blocksShaped bs)
    (s : Emitting) :
    (lowerItems l bs line).Tries s (blocksCalls bs (.value false)) fun _ t => s.Attaches [] t := by
  match bs with
  | [] => exact .of_ok rfl (.of_eq rfl)
  | e :: es =>
    rw [elementsLinks_cons] at hl
    obtain ⟨m, ⟨g, m', hg, _, he⟩, hes⟩ := hl
    unfold lowerItems
    rw [blocksCalls]
    refine (lowerBlock_closes e false hg.has he hs.1 s).bind fun _ t ht => ?_
    refine Tries.seq rfl (Tries.seq rfl ?_)
    rw [← List.append_nil (blocksCalls es _)]
    refine (lowerItems_tries es line hes hs.2 _).bind fun slots r hr => .of_ok rfl ?_
    exact Emitting.Attaches.before ht ⟨hr.length_le, hr.kept, hr.attached⟩
termination_by sizeOf bs

/-- The labels of the arms wait to be attached, and are attached when the arms have been lowered. -/
theorem lowerArms_tries {l : Links} (cases : List Block) {labels : List Nat} (done : Nat)
    (allowTail : Bool) {own : Nat → Prop} {gs : List Group} {a b : Nat}
    (hl : ArmsLinks l cases own gs a b) (hs : blocksShaped cases) (ha : ∀ b ∈ cases, b.IsArm)
    (hn : labels.length = cases.length) {s : Emitting} (hw : s.Awaits labels) :
    (lowerArms l cases labels done allowTail).Tries s (blocksCalls cases (.arm allowTail))
      fun _ t => s.Attaches labels t := by
  match cases, labels with
  | [], [] =>
    unfold lowerArms
    exact .of_ok rfl (.of_eq rfl)
  | c :: cases, label :: labels =>
    obtain ⟨⟨pattern, body, line, rfl⟩, harms⟩ := List.forall_mem_cons.mp ha
    rw [armsLinks_cons] at hl
    obtain ⟨m, ⟨g₁, g₂, m₁, m₂, h₁, h₂, _, hb⟩, hcases⟩ := hl
    have hn := Nat.succ.inj hn
    obtain ⟨hnot, hnodup⟩ := List.nodup_cons.mp hw.nodup
    have hfirst : s.Awaits [label] := ⟨by simp, fun i hi =>
      hw.unattached i (List.mem_cons.mpr (.inl (List.mem_singleton.mp hi)))⟩
    have hothers : s.Awaits labels :=
      ⟨hnodup, fun i hi => hw.unattached i (List.mem_cons_of_mem _ hi)⟩
    have hbody : (lowerBlock l body allowTail).Closes (body.calls (.value allowTail)) :=
      lowerBlock_closes body allowTail h₂.has hb hs.1.2
    unfold lowerArms
    rw [blocksCalls, calls_arm]
    refine (attach_tries hfirst).before fun _ t ht => ?_
    refine (storePattern_closes pattern line (Links.has_append.mp h₁.has).1 t).before
      fun _ u hu => (hbody u).bind fun _ v hv => ?_
    refine (emit_closes line (.jump done) v).before fun _ w hw' => ?_
    have hfirst := ht.trans (hu.trans (hv.trans hw'))
    refine (lowerArms_tries cases done allowTail hcases hs.2 harms hn
      (hothers.after hfirst ?_)).imp fun _ r hr => ?_
    · intro i hi hm
      exact hnot (by simpa using List.mem_singleton.mp hm ▸ hi)
    · exact hfirst.trans hr
  | [], _ :: _ => cases hn
  | _ :: _, [] => cases hn
termination_by sizeOf cases

theorem lowerBlock_closes {l : Links} (b : Block) (allowTail : Bool) {own : Nat → Prop}
    {gs : List Group} {i j : Nat} (hp : l.Has (patternsLeaves b.patterns))
    (hl : BodyLinks l b own gs i j) (hs : b.Shaped) :
    (lowerBlock l b allowTail).Closes (b.calls (.value allowTail)) := by
  match b with
  | .result e =>
    rw [BodyLinks] at hl
    unfold lowerBlock
    rw [Block.calls]
    exact lowerExpr_closes e allowTail hl hs
  | .bind p value isPublic rest =>
    rw [bodyLinks_bind] at hl
    obtain ⟨m, ⟨g, m', hg, _, hv⟩, hr⟩ := hl
    rw [Block.patterns, patternsLeaves, Links.has_append] at hp
    unfold lowerBlock
    rw [Block.calls]
    exact (lowerBlock_closes value false hg.has hv hs.2.1).bind
      ((storePattern_closes p _ hp.1).bind (lowerBlock_closes rest allowTail hp.2 hr hs.2.2.2))
termination_by sizeOf b

end

theorem lowerImports_closes (is : List Import) : (is.forM lowerImport).Closes [] := by
  have hentries : ∀ (line : Nat) (file : String) (names : List QName),
      (names.forM fun n => emit line (.importEntry file n.parts)).Closes [] := by
    intro line file names
    induction names with
    | nil => exact .of_eq fun s => ⟨s, rfl, rfl⟩
    | cons n names ih => exact (emit_closes _ _).bind ih
  induction is with
  | nil => exact .of_eq fun s => ⟨s, rfl, rfl⟩
  | cons i is ih =>
    refine Closes.before ?_ ih
    unfold lowerImport
    split
    · exact emit_closes _ _
    · exact hentries _ _ _

theorem lowerType_closes (path : List String) (name : QName) (isPublic : Bool)
    (cases : List CaseDecl) : (lowerType path name isPublic cases).Closes [] := by
  unfold lowerType
  cases name.parts.getLast? with
  | none => exact .of_eq fun s => ⟨s, rfl, rfl⟩
  | some last =>
    simp only
    split
    · exact emit_closes _ _
    · exact (emit_closes _ _).bind (emit_closes _ _)

theorem Links.has_binding {l : Links} {d : Decl} {ds : List Decl}
    (h : l.Has (patternsLeaves (bindingPatterns (d :: ds)))) :
    (∀ p value isPublic, d = .binding p value isPublic → l.Has p.leaves) ∧
      l.Has (patternsLeaves (bindingPatterns ds)) := by
  cases d with
  | binding p value isPublic =>
    rw [bindingPatterns, List.filterMap_cons] at h
    simp only [patternsLeaves, Links.has_append] at h
    refine ⟨fun _ _ _ he => ?_, h.2⟩
    cases he
    exact h.1
  | space _ | type _ _ _ _ => exact ⟨nofun, h⟩

mutual

theorem lowerDecls_closes {l : Links} {publishRoot : Bool} {path : List String} (ds : List Decl)
    {own : Nat → Prop} {gs : List Group} {a b : Nat} (hl : DeclsLinks l ds own gs a b)
    (hp : l.Has (patternsLeaves (bindingPatterns ds))) (hs : declsShaped ds) :
    (lowerDecls l publishRoot path ds).Closes (declsCalls ds) := by
  match ds with
  | [] => exact .of_eq fun s => ⟨s, rfl, rfl⟩
  | d :: ds =>
    rw [DeclsLinks] at hl
    obtain ⟨m, hd, hds⟩ := hl
    obtain ⟨hhead, hrest⟩ := Links.has_binding hp
    exact (lowerDecl_closes d hd hhead hs.1).bind (lowerDecls_closes ds hds hrest hs.2)

theorem lowerDecl_closes {l : Links} {publishRoot : Bool} {path : List String} (d : Decl)
    {own : Nat → Prop} {gs : List Group} {a b : Nat} (hl : DeclLinks l d own gs a b)
    (hp : ∀ p value isPublic, d = .binding p value isPublic → l.Has p.leaves) (hs : d.Shaped) :
    (lowerDecl l publishRoot path d).Closes d.calls := by
  match d with
  | .space ns =>
    rw [DeclLinks] at hl
    exact lowerNamespace_closes ns hl hs
  | .type name isPublic cases none =>
    exact (lowerType_closes _ _ _ _).bind (.of_eq fun s => ⟨s, rfl, rfl⟩)
  | .type name isPublic cases (some ns) =>
    rw [DeclLinks] at hl
    have hname : name.parts.isEmpty = false := List.isEmpty_eq_false_iff.mpr hs.1
    have hbody : (lowerNamespace l publishRoot path ns).Closes ns.calls :=
      lowerNamespace_closes ns hl hs.2.2.2.2
    refine Closes.before (lowerType_closes _ _ _ _) ?_
    rw [hname]
    exact hbody
  | .binding p value isPublic =>
    rw [DeclLinks] at hl
    obtain ⟨g, m, hg, _, hb⟩ := hl
    have hvalue := lowerBlock_closes value false hg.has hb hs.2
    refine (hvalue.bind ?_).perm (List.Perm.of_eq (List.append_nil _))
    exact storePattern_closes p value.value.line (hp p value isPublic rfl)

theorem lowerNamespace_closes {l : Links} {publishRoot : Bool} {path : List String}
    (ns : NamespaceDecl) {own : Nat → Prop} {gs : List Group} {a b : Nat}
    (hl : NamespaceLinks l ns own gs a b) (hs : ns.Shaped) :
    (lowerNamespace l publishRoot path ns).Closes ns.calls := by
  match ns with
  | .mk name isPublic decls =>
    rw [NamespaceLinks] at hl
    obtain ⟨g, m, hg, _, hds⟩ := hl
    exact Closes.before (emit_closes _ _) (lowerDecls_closes decls hds hg.has hs.2)

end

theorem lowerProgram_closes {l : Links} {publishRoot : Bool} {p : Program} {own : Nat → Prop}
    {a b : Nat} (hl : ProgramLinks l p own a b) (hs : p.Shaped) :
    (lowerProgram l publishRoot p).Closes p.calls := by
  obtain ⟨g, m, m', hg, _, hds, hc⟩ := hl
  have hroot : declsCalls p.root.decls = p.root.calls := by
    obtain ⟨_, _, decls⟩ := p.root
    rfl
  have hdecls : (lowerDecls l publishRoot [] p.root.decls).Closes (declsCalls p.root.decls) :=
    lowerDecls_closes p.root.decls hds hg.has hs.decls
  unfold lowerProgram Program.calls
  rw [← hroot]
  refine Closes.before (lowerImports_closes p.imports) (hdecls.bind ?_)
  cases ht : p.trailing with
  | none => exact .of_eq fun s => ⟨s, rfl, rfl⟩
  | some c =>
    rw [ht] at hc
    exact lowerExpr_closes c.toExpr false hc (hs.trailing c ht)

/-- What has been read can be compiled if it is formed as it should be, whether its bindings at the root
are published or not and whatever slots have been given out before; and else it is refused for one of its
calls, and for nothing but that. -/
theorem compiles_iff_wellFormed {ls : List Lexeme} {p : Program} (h : Program.ofLexemes ls = .ok p)
    (publishRoot : Bool) (nextSlot : Nat) :
    ((∃ r, p.compile publishRoot nextSlot = .ok r) ↔
      (∀ c ∈ p.calls, c.callee.isSelf = true → c.isLast = true) ∧
        ∀ c ∈ p.calls, c.callee.isMatchName = true → c.HasArms) ∧
    ∀ e, p.compile publishRoot nextSlot = .error e →
      (e.failure = .illegalTailCall ∨ e.failure = .matchArgCount ∨
        e.failure = .matchCasesNotList ∨ e.failure = .matchCaseNotFunction ∨
        e.failure = .matchCaseArity) ∧ ∃ c ∈ p.calls, c.Refused e.failure := by
  obtain ⟨_, hshape⟩ := Program.faithful_of_ofLexemes h
  obtain ⟨own, hlinks⟩ := p.link_resolves nextSlot (Program.ids_nodup h)
  have hclose : (lowerProgram (p.link nextSlot).links publishRoot p).Closes p.calls :=
    lowerProgram_closes hlinks hshape
  unfold Program.compile
  rcases hclose ⟨.empty, (p.link nextSlot).nextSlot⟩ with ⟨_, t, hr, ht, hcs⟩ | ⟨e, he, c, hc, href⟩
  · obtain ⟨code, hcode⟩ := ht.finish rfl
    simp only [hr, hcode, bind, Except.bind]
    exact ⟨⟨fun _ => ⟨fun c hc => (hcs c hc).restart, fun c hc => (hcs c hc).choice⟩,
      fun _ => ⟨_, rfl⟩⟩, nofun⟩
  · simp only [he, bind, Except.bind]
    refine ⟨⟨nofun, fun ⟨hrestarts, hchoices⟩ => ?_⟩, fun e' he' => ?_⟩
    · exact absurd ⟨hrestarts c hc, hchoices c hc⟩ href.not_formed
    · cases he'
      exact ⟨href.failure, c, hc, href⟩

/-- The tokens of `({ x -> (match x [{ [] -> (. x) } { y -> y }]) } ())`, all on one line. -/
def restartInArm : List Lexeme :=
  [.openParen, .openBrace, .name "x", .arrow, .openParen, .name "match", .name "x", .openBracket,
    .openBrace, .emptyList, .arrow, .openParen, .dot, .name "x", .closeParen, .closeBrace,
    .openBrace, .name "y", .arrow, .name "y", .closeBrace, .closeBracket, .closeParen, .closeBrace,
    .unit, .closeParen].map fun t => ⟨t, 1⟩

def restartInArmProgram : Program where
  imports := []
  root := .mk ⟨0, [], 1⟩ true []
  trailing := some
    { callee := .function [.name 1 "x" 1]
        (.result (.call (.name ⟨2, ["match"], 1⟩)
          [.name ⟨3, ["x"], 1⟩,
            .list
              [.result (.function [.literal .emptyList 1]
                (.result (.call (.self 1) [.name ⟨4, ["x"], 1⟩] 1)) 1),
              .result (.function [.name 5 "y" 1] (.result (.name ⟨6, ["y"], 1⟩)) 1)] 1] 1)) 1
      args := [.literal .unit 1]
      line := 1 }

/-- What an arm does last the function around the choice does last. -/
theorem restartInArm_compiles :
    Program.ofLexemes restartInArm = .ok restartInArmProgram ∧
      ∃ r, restartInArmProgram.compile false 0 = .ok r := by
  have hread : Program.ofLexemes restartInArm = .ok restartInArmProgram := rfl
  exact ⟨hread, (compiles_iff_wellFormed hread false 0).1.mpr ⟨by decide, by decide⟩⟩

end MatchLang
