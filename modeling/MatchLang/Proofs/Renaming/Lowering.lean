import Mathlib.Data.Fintype.EquivFin
import MatchLang.Lowering.Program
import MatchLang.Proofs.Code.Slots
import MatchLang.Proofs.Links.Bounds
import MatchLang.Proofs.Renaming.Linking

/-! A program and the one with a declaration renamed are lowered alike: to the same code but for the numbers
of the slots and the name of the declaration, or else the one is refused as the other is. -/

namespace MatchLang

namespace Renaming

variable (ρ : Renaming)

def unit (b : Builder) : Builder where
  instrs := b.instrs.map (·.mapSlots ρ.image)
  labels := b.labels

def emitting (s : Emitting) : Emitting where
  unit := ρ.unit s.unit
  nextSlot := ρ.number s.nextSlot

/-- The slots that are given out next are none that has been linked. -/
structure Before (s : Emitting) : Prop where
  first : ρ.first ≤ s.nextSlot
  slot : ρ.slot.id < s.nextSlot

/-- The second emitter does what the first one does, but for the slots; what it comes to is made of what the
first one comes to. -/
def Follows {α β : Type} (f : α → β) (x : Emitter α) (y : Emitter β) : Prop :=
  ∀ s, ρ.Before s →
    y.run (ρ.emitting s) = (x.run s).map (fun r => (f r.1, ρ.emitting r.2)) ∧
      ∀ a t, x.run s = .ok (a, t) → ρ.Before t

variable {ρ}

section

variable {α β γ δ : Type} {f : α → β} {g : γ → δ} {x : Emitter α} {y : Emitter β}
  {h : α → Emitter γ} {k : β → Emitter δ}

theorem Follows.bind (hx : ρ.Follows f x y) (hh : ∀ a, ρ.Follows g (h a) (k (f a))) :
    ρ.Follows g (x >>= h) (y >>= k) := by
  intro s hs
  obtain ⟨hrun, hbefore⟩ := hx s hs
  rw [StateT.run_bind, StateT.run_bind, hrun]
  cases hr : x.run s with
  | error e => exact ⟨rfl, nofun⟩
  | ok r =>
    obtain ⟨a, t⟩ := r
    exact hh a t (hbefore a t hr)

theorem Follows.pure (a : α) : ρ.Follows f (pure a) (pure (f a)) := by
  refine fun s hs => ⟨rfl, fun _ t h => ?_⟩
  cases h
  exact hs

theorem Follows.reject (failure : CompileFailure) (line : Nat) :
    ρ.Follows f (reject failure line) (reject failure line) :=
  fun _ _ => ⟨rfl, nofun⟩

theorem Follows.lift {r : Except CompileError α} {r' : Except CompileError β} (h : r' = r.map f) :
    ρ.Follows f (liftM r) (liftM r') := by
  subst h
  cases r with
  | error e => exact fun _ _ => ⟨rfl, nofun⟩
  | ok a => exact .pure a

end

/-- What is done one after the other. -/
theorem Follows.seq {x x' y y' : Emitter Unit} (hx : ρ.Follows id x x') (hy : ρ.Follows id y y') :
    ρ.Follows id (do x; y : Emitter Unit) (do x'; y' : Emitter Unit) :=
  hx.bind fun _ => hy

theorem emit_follows (line : Nat) (op : Op) :
    ρ.Follows id (emit line op) (emit line (op.mapSlots ρ.image)) := by
  refine fun s hs => ⟨?_, fun _ t h => ?_⟩
  · have hunit : ρ.unit (s.unit.emit line op) = (ρ.unit s.unit).emit line (op.mapSlots ρ.image) := by
      simp only [unit, Builder.emit, Array.map_push]
      rfl
    show Except.ok ((), (⟨(ρ.unit s.unit).emit line (op.mapSlots ρ.image), _⟩ : Emitting)) = _
    rw [← hunit]
    rfl
  · cases h
    exact ⟨hs.first, hs.slot⟩

theorem freshLabel_follows (line : Nat) : ρ.Follows id (freshLabel line) (freshLabel line) := by
  refine fun s hs => ⟨rfl, fun _ t h => ?_⟩
  cases h
  exact ⟨hs.first, hs.slot⟩

theorem attach_follows (label line : Nat) : ρ.Follows id (attach label line) (attach label line) := by
  have hrun : ∀ s : Emitting, (attach label line).run s =
      (s.unit.attach label line).map fun b => ((), { s with unit := b }) := by
    intro s
    have hlift : (attach label line).run s =
        (liftM (s.unit.attach label line) >>= fun b => set { s with unit := b } : Emitter Unit).run s :=
      rfl
    rw [hlift, StateT.run_bind]
    cases s.unit.attach label line <;> rfl
  intro s hs
  have hunit : (ρ.unit s.unit).attach label line = (s.unit.attach label line).map ρ.unit := by
    unfold Builder.attach
    have hlabels : (ρ.unit s.unit).labels = s.unit.labels := rfl
    rw [hlabels]
    split
    · simp [unit, Except.map]
    · rfl
  have hunit' : (ρ.emitting s).unit = ρ.unit s.unit := rfl
  rw [hrun, hrun, hunit', hunit]
  cases s.unit.attach label line with
  | error e => exact ⟨rfl, nofun⟩
  | ok b =>
    refine ⟨rfl, fun _ t h => ?_⟩
    cases h
    exact ⟨hs.first, hs.slot⟩

/-- A slot that no name has. -/
theorem freshSlot_follows (name : String) (line : Nat) :
    ρ.Follows ρ.image (freshSlot name line) (freshSlot name line) := by
  refine fun s hs => ⟨?_, fun _ t h => ?_⟩
  · have hne : (⟨s.nextSlot, name, line⟩ : Slot) ≠ ρ.slot := by
      intro h
      have hslot := hs.slot
      rw [← h] at hslot
      exact Nat.lt_irrefl _ hslot
    have himage : ρ.image ⟨s.nextSlot, name, line⟩ = ⟨ρ.number s.nextSlot, name, line⟩ := by
      unfold image Slot.rename
      rw [if_neg hne]
      rfl
    have hnext : ρ.number (s.nextSlot + 1) = ρ.number s.nextSlot + 1 := number_succ hs.first
    show Except.ok ((⟨ρ.number s.nextSlot, name, line⟩ : Slot),
      (⟨ρ.unit s.unit, ρ.number s.nextSlot + 1⟩ : Emitting)) = _
    rw [← himage, ← hnext]
    rfl
  · cases h
    exact ⟨Nat.le_succ_of_le hs.first, Nat.lt_succ_of_lt hs.slot⟩

theorem finish_unit (b : Builder) :
    (ρ.unit b).finish = b.finish.map (·.mapSlots ρ.image) := by
  unfold Builder.finish
  have hlabels : (ρ.unit b).labels = b.labels := rfl
  rw [hlabels]
  cases Builder.targetsFrom 0 b.labels with
  | error e => rfl
  | ok ts =>
    show Except.ok _ = Except.ok _
    rw [Except.ok.injEq, unit, Array.toList_map, ← instrsMapSlots_eq]
    rfl

theorem inOwnUnit_follows {build build' : Emitter Unit} (h : ρ.Follows id build build') :
    ρ.Follows (·.mapSlots ρ.image) (inOwnUnit build) (inOwnUnit build') := by
  have hrun : ∀ (build : Emitter Unit) (s : Emitting), (inOwnUnit build).run s =
      (build.run { s with unit := .empty }).bind fun r =>
        r.2.unit.finish.map fun code => (code, { r.2 with unit := s.unit }) := by
    intro build s
    have hstart : (inOwnUnit build).run s =
        (build >>= fun _ => do
          let code ← (← get).unit.finish
          modify fun t => { t with unit := s.unit }
          return code : Emitter Code).run { s with unit := .empty } := rfl
    rw [hstart, StateT.run_bind]
    cases build.run { s with unit := .empty } with
    | error e => rfl
    | ok r =>
      show ((liftM r.2.unit.finish >>= fun code => do
        modify fun t => { t with unit := s.unit }
        return code : Emitter Code)).run r.2 = _
      rw [StateT.run_bind]
      cases hf : r.2.unit.finish <;> simp only [Except.bind, hf] <;> rfl
  intro s hs
  obtain ⟨hbuild, hbefore⟩ := h { s with unit := .empty } ⟨hs.first, hs.slot⟩
  have hempty : ρ.emitting { s with unit := .empty } = { ρ.emitting s with unit := .empty } := by
    simp [emitting, unit, Builder.empty]
  rw [hempty] at hbuild
  rw [hrun, hrun, hbuild]
  cases hr : build.run { s with unit := .empty } with
  | error e => exact ⟨rfl, nofun⟩
  | ok r =>
    obtain ⟨⟨⟩, t⟩ := r
    have ht := hbefore () t hr
    have hfinish : (ρ.emitting t).unit.finish = t.unit.finish.map (·.mapSlots ρ.image) :=
      finish_unit t.unit
    simp only [Except.map, Except.bind, hfinish]
    cases t.unit.finish with
    | error e => exact ⟨rfl, nofun⟩
    | ok code =>
      refine ⟨rfl, fun _ r h => ?_⟩
      cases h
      exact ⟨ht.first, ht.slot⟩

end Renaming

open Renaming

section

variable {ρ : Renaming} {l : Links} {publishAt : Option (List String)}

theorem emitCons_follows (line : Nat) : ρ.Follows id (emitCons line) (emitCons line) :=
  (emit_follows line (.loadName [consName])).seq (emit_follows line (.call 2))

/-- Leaves of which those that are renamed are linked to the slot and not published. -/
def Renaming.Leaves (ρ : Renaming) (l : Links) (publishAt : Option (List String)) (xs : List Leaf) :
    Prop :=
  ∀ x ∈ xs, (x.id ∈ ρ.ids ↔ l.get? x.id = some ρ.slot) ∧ (publishAt.isSome → x.id ∉ ρ.ids)

theorem Renaming.leaves_append {xs ys : List Leaf} :
    ρ.Leaves l publishAt (xs ++ ys) ↔ ρ.Leaves l publishAt xs ∧ ρ.Leaves l publishAt ys :=
  List.forall_mem_append

theorem Renaming.Marks.leaves {g : List Declared} {gs : List (List Declared)} {us : List QName}
    (h : ρ.Marks l gs us) (hg : g ∈ gs) {xs : List Leaf}
    (hx : ∀ x ∈ xs, ∃ d ∈ g, d.leaf = x ∧ (publishAt.isSome → d.isPublic = true)) :
    ρ.Leaves l publishAt xs := by
  intro x hm
  obtain ⟨d, hd, rfl, hpublic⟩ := hx x hm
  obtain ⟨hid, -, hnot⟩ := h.leaf g hg d hd
  exact ⟨hid, fun hp => hnot (hpublic hp)⟩

theorem storeName_follows {i line : Nat} {name : String}
    (h : ρ.Leaves l publishAt [⟨i, name, line⟩]) :
    ρ.Follows id (storeName l publishAt i name line)
      (storeName (l.map ρ.image) publishAt i (if i ∈ ρ.ids then ρ.name else name) line) := by
  obtain ⟨hid, hpublic⟩ := h _ List.mem_cons_self
  unfold storeName
  rw [Links.get?_map]
  cases hl : l.get? i with
  | none =>
    have hnot : i ∉ ρ.ids := fun hm => by rw [hl] at hid; exact nomatch hid.mp hm
    rw [if_neg hnot]
    exact .reject _ _
  | some slot =>
    cases publishAt with
    | none => exact emit_follows line (.saveLocal slot)
    | some path =>
      rw [if_neg (hpublic rfl)]
      exact ((emit_follows line .duplicate).seq (emit_follows line (.publish name path))).seq
        (emit_follows line (.saveLocal slot))

mutual

theorem Pattern.shape_rename (p : Pattern) : (p.rename ρ.ids ρ.name).shape = p.shape := by
  match p with
  | .wildcard | .name _ _ _ | .literal _ _ => rfl
  | .list items => exact listShape_rename items
  | .type n params => exact congrArg (Shape.type n.parts) (patternShapes_rename params)

theorem listShape_rename (ps : List Pattern) :
    listShape (patternsRename ρ.ids ρ.name ps) = listShape ps := by
  match ps with
  | [] => rfl
  | p :: ps => rw [patternsRename, listShape, listShape, Pattern.shape_rename p, listShape_rename ps]

theorem patternShapes_rename (ps : List Pattern) :
    patternShapes (patternsRename ρ.ids ρ.name ps) = patternShapes ps := by
  match ps with
  | [] => rfl
  | p :: ps =>
    rw [patternsRename, patternShapes, patternShapes, Pattern.shape_rename p,
      patternShapes_rename ps]

end

mutual

theorem storePattern_follows (p : Pattern) (line : Nat) (h : ρ.Leaves l publishAt p.leaves) :
    ρ.Follows id (storePattern l publishAt p line)
      (storePattern (l.map ρ.image) publishAt (p.rename ρ.ids ρ.name) line) := by
  match p with
  | .wildcard => exact emit_follows line .pop
  | .literal value literalLine => exact emit_follows literalLine (.require value.shape)
  | .name i n nameLine => exact storeName_follows h
  | .list items => exact storeItems_follows items line h
  | .type n params =>
    unfold Pattern.rename storePattern
    rw [patternsRename_length]
    exact (emit_follows n.line (.decompose n.parts params.length)).seq
      (storePatterns_follows params n.line h)

theorem storeItems_follows (ps : List Pattern) (line : Nat)
    (h : ρ.Leaves l publishAt (patternsLeaves ps)) :
    ρ.Follows id (storeItems l publishAt ps line)
      (storeItems (l.map ρ.image) publishAt (patternsRename ρ.ids ρ.name ps) line) := by
  match ps with
  | [] => exact emit_follows line (.decompose [emptyName] 0)
  | p :: ps =>
    obtain ⟨hp, hps⟩ := leaves_append.mp h
    exact (emit_follows line (.decompose [consName] 2)).seq
      ((storePattern_follows p line hp).seq (storeItems_follows ps line hps))

theorem storePatterns_follows (ps : List Pattern) (line : Nat)
    (h : ρ.Leaves l publishAt (patternsLeaves ps)) :
    ρ.Follows id (storePatterns l publishAt ps line)
      (storePatterns (l.map ρ.image) publishAt (patternsRename ρ.ids ρ.name ps) line) := by
  match ps with
  | [] => exact .pure ()
  | p :: ps =>
    obtain ⟨hp, hps⟩ := leaves_append.mp h
    exact (storePattern_follows p line hp).seq (storePatterns_follows ps line hps)

end

theorem emitItems_follows (line : Nat) (slots : List Slot) :
    ρ.Follows id (emitItems line slots) (emitItems line (slots.map ρ.image)) := by
  induction slots with
  | nil => exact .pure ()
  | cons slot slots ih =>
    exact ih.seq ((emit_follows line (.loadLocal slot)).seq (emitCons_follows line))

/-- The arm with its pattern renamed. -/
def Arm.rename (ids : List Nat) (name : String) (a : Arm) : Arm :=
  { a with pattern := a.pattern.rename ids name }

theorem armLabels_follows (arms : List Arm) :
    ρ.Follows id (armLabels arms) (armLabels (arms.map (·.rename ρ.ids ρ.name))) := by
  induction arms with
  | nil => exact .pure _
  | cons a arms ih =>
    exact (freshLabel_follows a.line).bind fun label => ih.bind fun labels => .pure _

theorem emitTests_follows (arms : List Arm) (labels : List Nat) :
    ρ.Follows id (emitTests arms labels)
      (emitTests (arms.map (·.rename ρ.ids ρ.name)) labels) := by
  induction arms generalizing labels with
  | nil => exact .pure ()
  | cons a arms ih =>
    cases labels with
    | nil => exact .pure ()
    | cons label labels =>
      have hshape : (a.rename ρ.ids ρ.name).pattern.shape = a.pattern.shape :=
        a.pattern.shape_rename
      rw [List.map_cons]
      unfold emitTests
      rw [hshape]
      exact (emit_follows a.line .duplicate).seq
        ((emit_follows a.line (.jumpIf a.pattern.shape label)).seq (ih labels))

section

variable (ids : List Nat) (name : String)

mutual

theorem Expr.isPure_rename (e : Expr) : (e.rename ids name).isPure = e.isPure := by
  match e with
  | .call _ _ _ | .function _ _ _ | .literal _ _ | .name _ | .self _ => rfl
  | .list elements _ => exact allPure_rename elements

theorem Block.isPure_rename (b : Block) : (b.rename ids name).isPure = b.isPure := by
  match b with
  | .result e => exact e.isPure_rename
  | .bind _ _ _ _ => rfl

theorem allPure_rename (bs : List Block) : allPure (blocksRename ids name bs) = allPure bs := by
  match bs with
  | [] => rfl
  | b :: bs => rw [blocksRename, allPure, allPure, Block.isPure_rename b, allPure_rename bs]

end

theorem Expr.line_rename (e : Expr) : (e.rename ids name).line = e.line := by
  cases e with
  | name n =>
    show (n.rename ids name).line = n.line
    unfold QName.rename
    split <;> rfl
  | _ => rfl

theorem Block.value_rename (b : Block) : (b.rename ids name).value = b.value.rename ids name := by
  induction b using Block.value.induct with
  | case1 e => rfl
  | case2 p value isPublic rest ih => exact ih

theorem Block.hasBindings_rename (b : Block) :
    (b.rename ids name).hasBindings = b.hasBindings := by
  cases b <;> rfl

theorem armsOf_rename (cases : List Block) :
    armsOf (blocksRename ids name cases) =
      (armsOf cases).map (List.map (·.rename ids name)) := by
  induction cases with
  | nil => rfl
  | cons b bs ih =>
    unfold blocksRename armsOf
    rw [b.value_rename, b.hasBindings_rename]
    cases b.value with
    | function params body line =>
      simp only [Expr.rename]
      split
      · rfl
      · match params with
        | [pattern] =>
          simp only [patternsRename, ih]
          cases armsOf bs <;> rfl
        | [] | _ :: _ :: _ => rfl
    | name n =>
      simp only [Expr.rename, Expr.line, QName.rename]
      split <;> rfl
    | _ => rfl

end

theorem mem_declaredBy {isPublic : Bool} {ps : List Pattern} {x : Leaf} (h : x ∈ patternsLeaves ps) :
    ∃ d ∈ declaredBy isPublic ps, d.leaf = x ∧ d.isPublic = isPublic :=
  ⟨⟨x, isPublic⟩, List.mem_map_of_mem h, rfl, rfl⟩

theorem Renaming.marks_blocks {b : Block} {bs : List Block} :
    ρ.Marks l (blocksGroups (b :: bs)) (blocksUses (b :: bs)) ↔
      ρ.Marks l b.groups b.uses ∧ ρ.Marks l (blocksGroups bs) (blocksUses bs) := by
  show ρ.Marks l (b.groups ++ blocksGroups bs) (b.uses ++ blocksUses bs) ↔ _
  exact marks_append

theorem Renaming.marks_bind {p : Pattern} {value rest : Block} {isPublic : Bool} :
    ρ.Marks l (Block.bind p value isPublic rest).innerGroups (Block.bind p value isPublic rest).uses ↔
      ρ.Marks l value.groups value.uses ∧ ρ.Marks l rest.innerGroups rest.uses := by
  show ρ.Marks l (value.groups ++ rest.innerGroups) (value.uses ++ rest.uses) ↔ _
  exact marks_append

/-- What parameters and blocks declare is not published. -/
theorem Renaming.Marks.local {ps : List Pattern} {gs : List (List Declared)} {us : List QName}
    (h : ρ.Marks l gs us) (hg : declaredBy false ps ∈ gs) :
    ρ.Leaves l none (patternsLeaves ps) := by
  refine h.leaves hg fun x hx => ?_
  obtain ⟨d, hd, rfl, -⟩ := mem_declaredBy hx
  exact ⟨d, hd, rfl, nofun⟩

theorem lowerName_follows (n : QName) (h : ρ.Marks l [] [n]) :
    ρ.Follows id (lowerName l n) (lowerName (l.map ρ.image) (n.rename ρ.ids ρ.name)) := by
  obtain ⟨hid, -, -⟩ := h.use n List.mem_cons_self
  have hop : (n.rename ρ.ids ρ.name).op (l.map ρ.image) = (n.op l).mapSlots ρ.image := by
    have hkey : (n.rename ρ.ids ρ.name).id = n.id := by
      unfold QName.rename
      split <;> rfl
    unfold QName.op
    rw [hkey, Links.get?_map]
    cases hl : l.get? n.id with
    | some slot => rfl
    | none =>
      have hnot : n.id ∉ ρ.ids := fun hm => by rw [hl] at hid; exact nomatch hid.mp hm
      rw [QName.rename, if_neg hnot]
      rfl
  have hline : (n.rename ρ.ids ρ.name).line = n.line := by
    unfold QName.rename
    split <;> rfl
  unfold lowerName
  rw [hop, hline]
  exact emit_follows n.line (n.op l)

/-- No choice is renamed, and nothing becomes one. -/
theorem isMatchName_rename {e : Expr} (h : ρ.Marks l e.groups e.uses) (hy : ρ.name ≠ matchWord) :
    (e.rename ρ.ids ρ.name).isMatchName = e.isMatchName := by
  cases e with
  | name n =>
    obtain ⟨-, -, hnot⟩ := h.use n List.mem_cons_self
    show (Expr.name (n.rename ρ.ids ρ.name)).isMatchName = _
    unfold QName.rename Expr.isMatchName
    by_cases hm : n.id ∈ ρ.ids
    · simp [hm, beq_eq_false_iff_ne.mpr hy, beq_eq_false_iff_ne.mpr (hnot hm)]
    · simp [hm]
  | _ => rfl

mutual

theorem lowerExpr_follows (e : Expr) (allowTail : Bool) (hy : ρ.name ≠ matchWord)
    (h : ρ.Marks l e.groups e.uses) :
    ρ.Follows id (lowerExpr l e allowTail)
      (lowerExpr (l.map ρ.image) (e.rename ρ.ids ρ.name) allowTail) := by
  match e with
  | .call callee args line =>
    obtain ⟨hc, hargs⟩ := marks_append.mp h
    unfold Expr.rename lowerExpr
    rw [isMatchName_rename hc hy]
    split
    · match args with
      | [scrutinee, .list cases caseLine] =>
        obtain ⟨hs, hlist⟩ := marks_append.mp hargs
        obtain ⟨hcases, -⟩ := marks_append.mp hlist
        refine Follows.bind (.lift (armsOf_rename ρ.ids ρ.name cases)) fun arms => ?_
        refine (lowerExpr_follows scrutinee false hy hs).seq ?_
        refine (freshLabel_follows line).bind fun done => (armLabels_follows arms).bind fun labels => ?_
        refine (emitTests_follows arms labels).seq ((emit_follows line (.fail noMatch)).seq ?_)
        exact (lowerArms_follows cases labels done allowTail hy hcases).seq
          ((attach_follows done line).seq (emit_follows line .nothing))
      | [_, .call _ _ _] | [_, .function _ _ _] | [_, .literal _ _] | [_, .self _] =>
        exact .reject _ _
      | [_, .name n] =>
        have hline : (n.rename ρ.ids ρ.name).line = n.line := Expr.line_rename ρ.ids ρ.name (.name n)
        simp only [exprsRename, Expr.rename, Expr.line, hline]
        exact .reject _ _
      | [] | [_] => exact .reject _ _
      | _ :: e :: _ :: _ => cases e <;> exact .reject _ _
    · rw [exprsRename_length]
      refine (lowerArgs_follows args hy hargs).seq ?_
      match callee with
      | .self _ =>
        simp only [Expr.rename]
        split
        · exact emit_follows line (.tailCall args.length)
        · exact .reject _ _
      | .call c as cl =>
        exact (lowerExpr_follows (.call c as cl) false hy hc).seq (emit_follows line (.call args.length))
      | .function ps b fl =>
        exact (lowerExpr_follows (.function ps b fl) false hy hc).seq
          (emit_follows line (.call args.length))
      | .list es ll =>
        exact (lowerExpr_follows (.list es ll) false hy hc).seq (emit_follows line (.call args.length))
      | .literal v vl =>
        exact (lowerExpr_follows (.literal v vl) false hy hc).seq (emit_follows line (.call args.length))
      | .name n =>
        exact (lowerExpr_follows (.name n) false hy hc).seq (emit_follows line (.call args.length))
  | .function params body line =>
    have hparams := h.local List.mem_cons_self
    have hblock : ρ.Marks l body.groups body.uses := h.tail
    have hbody := hblock.local List.mem_cons_self
    unfold Expr.rename lowerExpr
    rw [patternsRename_length]
    refine (inOwnUnit_follows ?_).bind fun code =>
      emit_follows line (.loadFunction code params.length)
    exact (storePatterns_follows params line hparams).seq
      (lowerBlock_follows body true hy hbody hblock.tail)
  | .list elements line =>
    unfold Expr.rename lowerExpr
    rw [allPure_rename]
    split
    · exact (emit_follows line (.loadName [emptyName])).seq (lowerPure_follows elements line hy h)
    · exact (lowerItems_follows elements line hy h).bind fun slots =>
        (emit_follows line (.loadName [emptyName])).seq (emitItems_follows line slots)
  | .literal value line =>
    have hop : value.op.mapSlots ρ.image = value.op := by cases value <;> rfl
    unfold Expr.rename lowerExpr lowerLiteral
    have hemit := emit_follows (ρ := ρ) line value.op
    rwa [hop] at hemit
  | .name n => exact lowerName_follows n h
  | .self line => exact .reject _ _
termination_by sizeOf e

theorem lowerArgs_follows (es : List Expr) (hy : ρ.name ≠ matchWord)
    (h : ρ.Marks l (exprsGroups es) (exprsUses es)) :
    ρ.Follows id (lowerArgs l es) (lowerArgs (l.map ρ.image) (exprsRename ρ.ids ρ.name es)) := by
  match es with
  | [] => exact .pure ()
  | e :: es =>
    obtain ⟨he, hes⟩ := marks_append.mp h
    exact (lowerArgs_follows es hy hes).seq (lowerExpr_follows e false hy he)
termination_by sizeOf es

theorem lowerPure_follows (bs : List Block) (line : Nat) (hy : ρ.name ≠ matchWord)
    (h : ρ.Marks l (blocksGroups bs) (blocksUses bs)) :
    ρ.Follows id (lowerPure l bs line)
      (lowerPure (l.map ρ.image) (blocksRename ρ.ids ρ.name bs) line) := by
  match bs with
  | [] => exact .pure ()
  | b :: bs =>
    obtain ⟨hb, hbs⟩ := marks_blocks.mp h
    exact (lowerPure_follows bs line hy hbs).seq
      ((lowerBlock_follows b false hy (hb.local List.mem_cons_self) hb.tail).seq (emitCons_follows line))
termination_by sizeOf bs

theorem lowerItems_follows (bs : List Block) (line : Nat) (hy : ρ.name ≠ matchWord)
    (h : ρ.Marks l (blocksGroups bs) (blocksUses bs)) :
    ρ.Follows (List.map ρ.image) (lowerItems l bs line)
      (lowerItems (l.map ρ.image) (blocksRename ρ.ids ρ.name bs) line) := by
  match bs with
  | [] => exact .pure []
  | b :: bs =>
    obtain ⟨hb, hbs⟩ := marks_blocks.mp h
    have hline : (b.rename ρ.ids ρ.name).value.line = b.value.line := by
      rw [Block.value_rename, Expr.line_rename]
    unfold blocksRename lowerItems
    rw [hline]
    refine (lowerBlock_follows b false hy (hb.local List.mem_cons_self) hb.tail).bind fun _ =>
      (freshSlot_follows itemName b.value.line).bind fun slot =>
        (emit_follows line (.saveLocal slot)).bind fun _ =>
          (lowerItems_follows bs line hy hbs).bind fun slots => .pure (slot :: slots)
termination_by sizeOf bs

theorem lowerArms_follows (cases : List Block) (labels : List Nat) (done : Nat) (allowTail : Bool)
    (hy : ρ.name ≠ matchWord) (h : ρ.Marks l (blocksGroups cases) (blocksUses cases)) :
    ρ.Follows id (lowerArms l cases labels done allowTail)
      (lowerArms (l.map ρ.image) (blocksRename ρ.ids ρ.name cases) labels done allowTail) := by
  match cases, labels with
  | .result (.function [pattern] body line) :: cases, label :: labels =>
    obtain ⟨hb, hbs⟩ := marks_blocks.mp h
    have hparams := (hb.tail.local List.mem_cons_self : ρ.Leaves l none (patternsLeaves [pattern]))
    have hblock : ρ.Marks l body.groups body.uses := hb.tail.tail
    have hbody := hblock.local List.mem_cons_self
    exact (attach_follows label line).seq
      ((storePattern_follows pattern line (leaves_append.mp hparams).1).seq
        ((lowerBlock_follows body allowTail hy hbody hblock.tail).seq
          ((emit_follows line (.jump done)).seq
            (lowerArms_follows cases labels done allowTail hy hbs))))
  | [], _ => exact .pure ()
  | .result (.function [_] _ _) :: _, [] => exact .pure ()
  | .result (.function [] _ _) :: _, _ | .result (.function (_ :: _ :: _) _ _) :: _, _
  | .bind _ _ _ _ :: _, _ | .result (.call _ _ _) :: _, _ | .result (.list _ _) :: _, _
  | .result (.literal _ _) :: _, _ | .result (.name _) :: _, _ | .result (.self _) :: _, _ =>
    exact .pure ()
termination_by sizeOf cases

theorem lowerBlock_follows (b : Block) (allowTail : Bool) (hy : ρ.name ≠ matchWord)
    (hp : ρ.Leaves l none (patternsLeaves b.patterns)) (h : ρ.Marks l b.innerGroups b.uses) :
    ρ.Follows id (lowerBlock l b allowTail)
      (lowerBlock (l.map ρ.image) (b.rename ρ.ids ρ.name) allowTail) := by
  match b with
  | .result e => exact lowerExpr_follows e allowTail hy h
  | .bind p value isPublic rest =>
    obtain ⟨hv, hr⟩ := marks_bind.mp h
    obtain ⟨hp, hrest⟩ := leaves_append.mp hp
    have hvalue : ρ.Leaves l none (patternsLeaves value.patterns) := hv.local List.mem_cons_self
    have hline : (value.rename ρ.ids ρ.name).value.line = value.value.line := by
      rw [Block.value_rename, Expr.line_rename]
    unfold Block.rename lowerBlock
    rw [hline]
    exact (lowerBlock_follows value false hy hvalue hv.tail).seq
      ((storePattern_follows p value.value.line hp).seq
        (lowerBlock_follows rest allowTail hy hrest hr))
termination_by sizeOf b

end

theorem lowerType_follows (path : List String) (name : QName) (isPublic : Bool)
    (cases : List CaseDecl) :
    ρ.Follows id (lowerType path name isPublic cases) (lowerType path name isPublic cases) := by
  unfold lowerType
  cases name.parts.getLast? with
  | none => exact .pure ()
  | some last =>
    have hmake := emit_follows (ρ := ρ) name.line (.makeType last (path ++ name.parts.dropLast)
      (cases.map fun c => { name := c.name, arity := c.arity }))
    simp only
    split
    · exact hmake
    · exact (emit_follows name.line (.makeNamespace (path ++ name.parts.dropLast) isPublic)).seq hmake

theorem lowerImports_follows (is : List Import) :
    ρ.Follows id (is.forM lowerImport) (is.forM lowerImport) := by
  have hentries : ∀ (line : Nat) (file : String) (names : List QName),
      ρ.Follows id (names.forM fun n => emit line (.importEntry file n.parts))
        (names.forM fun n => emit line (.importEntry file n.parts)) := by
    intro line file names
    induction names with
    | nil => exact .pure ()
    | cons n names ih => exact (emit_follows line (.importEntry file n.parts)).seq ih
  induction is with
  | nil => exact .pure ()
  | cons i is ih =>
    refine Follows.seq ?_ ih
    unfold lowerImport
    split
    · exact emit_follows i.line (.importAll i.file)
    · exact hentries i.line i.file i.names

mutual

theorem lowerDecls_follows (ds : List Decl) (path : List String) (hy : ρ.name ≠ matchWord)
    (hp : ∀ d ∈ declsDeclared ds, (d.leaf.id ∈ ρ.ids ↔ l.get? d.leaf.id = some ρ.slot) ∧
      (d.isPublic = true → d.leaf.id ∉ ρ.ids))
    (h : ρ.Marks l (declsGroups ds) (declsUses ds)) :
    ρ.Follows id (lowerDecls l false path ds)
      (lowerDecls (l.map ρ.image) false path (declsRename ρ.ids ρ.name ds)) := by
  match ds with
  | [] => exact .pure ()
  | d :: ds =>
    obtain ⟨hd, hds⟩ := marks_append.mp h
    have hrest : ∀ d ∈ declsDeclared ds, (d.leaf.id ∈ ρ.ids ↔ l.get? d.leaf.id = some ρ.slot) ∧
        (d.isPublic = true → d.leaf.id ∉ ρ.ids) := by
      intro e he
      refine hp e ?_
      cases d with
      | binding p value isPublic => exact List.mem_append_right _ he
      | space _ | type _ _ _ _ => exact he
    refine (lowerDecl_follows d path hy (fun p value isPublic he x hx => ?_) hd).seq
      (lowerDecls_follows ds path hy hrest hds)
    subst he
    have hleaf : x ∈ patternsLeaves [p] := List.mem_append_left _ hx
    obtain ⟨e, he, rfl, hpublic⟩ := mem_declaredBy hleaf
    obtain ⟨hid, hnot⟩ := hp e (List.mem_append_left _ he)
    refine ⟨hid, fun hs => hnot ?_⟩
    rw [hpublic]
    cases isPublic with
    | true => rfl
    | false => simp at hs

theorem lowerDecl_follows (d : Decl) (path : List String) (hy : ρ.name ≠ matchWord)
    (hp : ∀ p value isPublic, d = .binding p value isPublic →
      ρ.Leaves l (if isPublic then some path else none) p.leaves)
    (h : ρ.Marks l d.groups d.uses) :
    ρ.Follows id (lowerDecl l false path d)
      (lowerDecl (l.map ρ.image) false path (d.rename ρ.ids ρ.name)) := by
  match d with
  | .space ns => exact lowerNamespace_follows ns path hy h
  | .type name isPublic cases none =>
    exact (lowerType_follows path name isPublic cases).seq (.pure ())
  | .type name isPublic cases (some ns) =>
    refine (lowerType_follows path name isPublic cases).seq ?_
    simp only
    split
    · exact .pure ()
    · exact lowerNamespace_follows ns path hy h
  | .binding p value isPublic =>
    have hvalue : ρ.Leaves l none (patternsLeaves value.patterns) := h.local List.mem_cons_self
    have hline : (value.rename ρ.ids ρ.name).value.line = value.value.line := by
      rw [Block.value_rename, Expr.line_rename]
    have hpublishes : (isPublic || (path.isEmpty && false)) = isPublic := by simp
    unfold Decl.rename lowerDecl
    rw [hline, hpublishes]
    exact (lowerBlock_follows value false hy hvalue h.tail).seq
      (storePattern_follows p value.value.line (hp p value isPublic rfl))

theorem lowerNamespace_follows (ns : NamespaceDecl) (path : List String) (hy : ρ.name ≠ matchWord)
    (h : ρ.Marks l ns.groups ns.uses) :
    ρ.Follows id (lowerNamespace l false path ns)
      (lowerNamespace (l.map ρ.image) false path (ns.rename ρ.ids ρ.name)) := by
  match ns with
  | .mk name isPublic decls =>
    have hp : ∀ d ∈ declsDeclared decls, (d.leaf.id ∈ ρ.ids ↔ l.get? d.leaf.id = some ρ.slot) ∧
        (d.isPublic = true → d.leaf.id ∉ ρ.ids) := by
      intro d hd
      obtain ⟨hid, -, hnot⟩ := h.leaf _ List.mem_cons_self d hd
      exact ⟨hid, hnot⟩
    exact (emit_follows name.line (.makeNamespace (path ++ name.parts) isPublic)).seq
      (lowerDecls_follows decls (path ++ name.parts) hy hp h.tail)

end

theorem lowerProgram_follows {p : Program} (hy : ρ.name ≠ matchWord)
    (h : ρ.Marks l p.groups p.uses) :
    ρ.Follows id (lowerProgram l false p)
      (lowerProgram (l.map ρ.image) false (p.rename ρ.ids ρ.name)) := by
  obtain ⟨imports, ⟨name, isPublic, decls⟩, trailing⟩ := p
  unfold Program.groups Program.uses at h
  obtain ⟨hroot, hend⟩ := marks_append.mp h
  have hp : ∀ d ∈ declsDeclared decls, (d.leaf.id ∈ ρ.ids ↔ l.get? d.leaf.id = some ρ.slot) ∧
      (d.isPublic = true → d.leaf.id ∉ ρ.ids) := by
    intro d hd
    obtain ⟨hid, -, hnot⟩ := hroot.leaf _ List.mem_cons_self d hd
    exact ⟨hid, hnot⟩
  refine (lowerImports_follows imports).seq
    ((lowerDecls_follows decls [] hy hp hroot.tail).seq ?_)
  cases trailing with
  | none => exact .pure ()
  | some c => exact lowerExpr_follows c.toExpr false hy hend

/-- The program with the declaration renamed is compiled to the same code, but for the slots, or refused
for the same reason. -/
theorem Program.compile_rename {p : Program} (hp : p.ids.Nodup) (hy : ρ.name ≠ matchWord)
    (hm : ρ.Marks (p.link ρ.first).links p.groups p.uses)
    (hslot : ρ.slot.id < (p.link ρ.first).nextSlot) (hfirst : ρ.first ≤ (p.link ρ.first).nextSlot) :
    (p.rename ρ.ids ρ.name).compile false ρ.first' =
      (p.compile false ρ.first).map fun r => (r.1.mapSlots ρ.image, ρ.number r.2) := by
  have hlink := Program.link_rename hp hm
  have hrun := (lowerProgram_follows hy hm ⟨.empty, (p.link ρ.first).nextSlot⟩ ⟨hfirst, hslot⟩).1
  have hstart : ρ.emitting ⟨.empty, (p.link ρ.first).nextSlot⟩ =
      ⟨.empty, ρ.number (p.link ρ.first).nextSlot⟩ := by
    simp [emitting, unit, Builder.empty]
  rw [hstart] at hrun
  unfold Program.compile
  rw [hlink]
  simp only [linking, hrun]
  cases hr : (lowerProgram (p.link ρ.first).links false p).run
      ⟨.empty, (p.link ρ.first).nextSlot⟩ with
  | error e => rfl
  | ok r =>
    obtain ⟨⟨⟩, t⟩ := r
    have hfinish : (ρ.emitting t).unit.finish = t.unit.finish.map (·.mapSlots ρ.image) :=
      finish_unit t.unit
    simp only [Except.map, bind, Except.bind, hfinish]
    cases t.unit.finish <;> rfl

end

/-! Where the slots of a program begin makes no difference. The program is its own renaming, for a name that is not in it
and no occurrence at all; so what it is compiled to from another slot on is the same but for the numbers of the slots. -/

mutual

theorem Pattern.rename_nil (y : String) (p : Pattern) : p.rename [] y = p := by
  match p with
  | .wildcard | .literal _ _ | .name _ _ _ => rfl
  | .list items => exact congrArg Pattern.list (patternsRename_nil y items)
  | .type n params => exact congrArg (Pattern.type n) (patternsRename_nil y params)

theorem patternsRename_nil (y : String) (ps : List Pattern) : patternsRename [] y ps = ps := by
  match ps with
  | [] => rfl
  | p :: ps => rw [patternsRename, Pattern.rename_nil y p, patternsRename_nil y ps]

end

mutual

theorem Expr.rename_nil (y : String) (e : Expr) : e.rename [] y = e := by
  match e with
  | .call callee args line => rw [Expr.rename, Expr.rename_nil y callee, exprsRename_nil y args]
  | .function params body line =>
    rw [Expr.rename, patternsRename_nil y params, Block.rename_nil y body]
  | .list elements line => rw [Expr.rename, blocksRename_nil y elements]
  | .literal _ _ | .name _ | .self _ => rfl

theorem exprsRename_nil (y : String) (es : List Expr) : exprsRename [] y es = es := by
  match es with
  | [] => rfl
  | e :: es => rw [exprsRename, Expr.rename_nil y e, exprsRename_nil y es]

theorem blocksRename_nil (y : String) (bs : List Block) : blocksRename [] y bs = bs := by
  match bs with
  | [] => rfl
  | b :: bs => rw [blocksRename, Block.rename_nil y b, blocksRename_nil y bs]

theorem Block.rename_nil (y : String) (b : Block) : b.rename [] y = b := by
  match b with
  | .result e => rw [Block.rename, Expr.rename_nil y e]
  | .bind p value isPublic rest =>
    rw [Block.rename, Pattern.rename_nil y p, Block.rename_nil y value, Block.rename_nil y rest]

end

mutual

theorem declsRename_nil (y : String) (ds : List Decl) : declsRename [] y ds = ds := by
  match ds with
  | [] => rfl
  | d :: ds => rw [declsRename, Decl.rename_nil y d, declsRename_nil y ds]

theorem Decl.rename_nil (y : String) (d : Decl) : d.rename [] y = d := by
  match d with
  | .space ns => exact congrArg Decl.space (NamespaceDecl.rename_nil y ns)
  | .type n isPublic cases (some ns) =>
    exact congrArg (fun ns => Decl.type n isPublic cases (some ns)) (NamespaceDecl.rename_nil y ns)
  | .type _ _ _ none => rfl
  | .binding p value isPublic =>
    rw [Decl.rename, Pattern.rename_nil y p, Block.rename_nil y value]

theorem NamespaceDecl.rename_nil (y : String) (ns : NamespaceDecl) : ns.rename [] y = ns := by
  match ns with
  | .mk n isPublic decls => rw [NamespaceDecl.rename, declsRename_nil y decls]

end

theorem Program.rename_nil (y : String) (p : Program) : p.rename [] y = p := by
  obtain ⟨imports, root, trailing⟩ := p
  have hcall : ∀ c : TrailingCall, c.rename [] y = c := by
    rintro ⟨callee, args, line⟩
    rw [TrailingCall.rename, Expr.rename_nil, exprsRename_nil]
  rw [Program.rename, NamespaceDecl.rename_nil]
  cases trailing with
  | none => rfl
  | some c => simp [hcall]

/-- There is always a name that is not in a program. -/
theorem Program.exists_absent_name (p : Program) : ∃ y, y ≠ matchWord ∧ (∀ g ∈ p.groups, ∀ d ∈ g, d.leaf.name ≠ y) ∧
    ∀ u ∈ p.uses, u.parts ≠ [y] := by
  obtain ⟨y, hy⟩ := Infinite.exists_notMem_finset
    (matchWord :: (p.groups.flatten.map (·.leaf.name) ++ p.uses.flatMap (·.parts))).toFinset
  simp only [List.mem_toFinset, List.mem_cons, List.mem_append, List.mem_map, List.mem_flatten, List.mem_flatMap,
    not_or, not_exists, not_and] at hy
  obtain ⟨hmatch, hleaves, huses⟩ := hy
  refine ⟨y, hmatch, fun g hg d hd => hleaves d ⟨g, hg, hd⟩, fun u hu he => huses u hu ?_⟩
  simp [he]

/-- The code does not depend on the first free slot, but for the numbers of its slots. -/
theorem Program.compile_relocate {p : Program} (hp : p.ids.Nodup) {n : Nat} (h : 0 < (p.link n).nextSlot) (n' : Nat) :
    p.compile false n' =
      (p.compile false n).map fun r => (r.1.mapSlots (·.renumber n n'), n' + r.2 - n) := by
  obtain ⟨y, hy, hleaves, huses⟩ := p.exists_absent_name
  have hsettles := Program.link_settles n hp
  -- no occurrence has this slot, so that nothing is renamed
  let ρ : Renaming := ⟨⟨0, y, 0⟩, y, [], n, n'⟩
  have himage : ρ.image = (·.renumber n n') := by
    funext s
    show ((s.rename ⟨0, y, 0⟩ y).renumber n n') = _
    unfold Slot.rename
    split
    · rename_i hs
      rw [hs]
    · rfl
  have hmarks : ρ.Marks (p.link n).links p.groups p.uses := by
    constructor
    · intro g hg d hd
      obtain ⟨group, _, _, _, _, hdecl⟩ := hsettles.1.of_mem hg
      obtain ⟨slot, hs, hname, _⟩ := hdecl.slot (List.mem_map_of_mem hd)
      refine ⟨⟨nofun, fun hl => ?_⟩, hleaves g hg d hd, fun _ => List.not_mem_nil⟩
      rw [hs, Option.some.injEq] at hl
      rw [hl] at hname
      exact absurd hname.symm (hleaves g hg d hd)
    · intro u hu
      refine ⟨⟨nofun, fun hl => ?_⟩, huses u hu, nofun⟩
      exact absurd (hsettles.2 u hu _ hl) (huses u hu)
  have hcompile := Program.compile_rename hp hy hmarks h (link_between p n).1
  rw [Program.rename_nil, himage] at hcompile
  exact hcompile

/-- So a program is refused from some slot on for the reason for which it is from another. -/
theorem Program.compile_eq_error {p : Program} (hp : p.ids.Nodup) {n : Nat} {e : CompileError} :
    p.compile false n = .error e ↔ p.compile false 0 = .error e := by
  rcases Nat.eq_zero_or_pos n with rfl | hn
  · rfl
  · rw [Program.compile_relocate hp (Nat.lt_of_lt_of_le hn (link_between p n).1) 0]
    cases p.compile false n <;> simp [Except.map]

end MatchLang
