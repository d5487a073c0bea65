import MatchLang.Proofs.Renaming.Trees

/-! A program and the one with a declaration renamed are linked alike: every occurrence has in the one the
slot that it has in the other, but for its number and the name of the declaration. -/

namespace MatchLang

namespace Renaming

variable {ρ : Renaming}

theorem number_succ {i : Nat} (h : ρ.first ≤ i) : ρ.number (i + 1) = ρ.number i + 1 := by
  unfold number
  omega

theorem lookup_cons_ite (name key : String) (slot : Slot) (g : Group) :
    List.lookup name ((key, slot) :: g) = if name = key then some slot else g.lookup name := by
  by_cases h : name = key
  · simp [h]
  · have hb : (name == key) = false := by simp [h]
    rw [List.lookup_cons, hb, if_neg h]

theorem group_cons (key : String) (slot : Slot) (g : Group) :
    ρ.group ((key, slot) :: g) =
      (if slot = ρ.slot then ρ.name else key, ρ.image slot) :: ρ.group g :=
  rfl

theorem lookup_eq_none {g : Group} {name : String} (h : name ∉ g.map Prod.fst) :
    g.lookup name = none := by
  cases hl : g.lookup name with
  | none => rfl
  | some slot =>
    obtain ⟨_, _, rfl, _⟩ := List.lookup_eq_some_iff.mp hl
    exact absurd (by simp) h

/-- A name that is neither old nor new is found as before. -/
theorem Tame.lookup_other {g : Group} (h : ρ.Tame g) {name : String} (hn : name ≠ ρ.name) :
    (ρ.group g).lookup name = ((g.lookup name).filter (· ≠ ρ.slot)).map ρ.image := by
  obtain ⟨hnodup, hentry⟩ := h
  induction g with
  | nil => rfl
  | cons e g ih =>
    obtain ⟨key, slot⟩ := e
    obtain ⟨hnot, hnodup⟩ := List.nodup_cons.mp hnodup
    specialize ih hnodup (List.forall_mem_cons.mp hentry).2
    rw [group_cons, lookup_cons_ite, lookup_cons_ite]
    by_cases hs : slot = ρ.slot
    · rw [if_pos hs, if_neg hn, ih]
      by_cases hk : name = key
      · simp [hk, lookup_eq_none hnot, hs, Option.filter]
      · rw [if_neg hk]
    · rw [if_neg hs]
      by_cases hk : name = key
      · simp [hk, hs, Option.filter]
      · rw [if_neg hk, if_neg hk, ih]

/-- The new name is found where the declaration was. -/
theorem Tame.lookup_name {g : Group} (h : ρ.Tame g) :
    (ρ.group g).lookup ρ.name =
      if g.lookup ρ.slot.name = some ρ.slot then some (ρ.image ρ.slot) else none := by
  obtain ⟨hnodup, hentry⟩ := h
  induction g with
  | nil => rfl
  | cons e g ih =>
    obtain ⟨key, slot⟩ := e
    obtain ⟨hnot, hnodup⟩ := List.nodup_cons.mp hnodup
    obtain ⟨⟨hkey, hne⟩, hrest⟩ := List.forall_mem_cons.mp hentry
    specialize ih hnodup hrest
    rw [group_cons, lookup_cons_ite, lookup_cons_ite]
    by_cases hs : slot = ρ.slot
    · have hk : ρ.slot.name = key := by rw [← hs, ← hkey]
      rw [if_pos hs, if_pos rfl, if_pos hk, hs, if_pos rfl]
    · rw [if_neg hs, if_neg hne.symm, ih]
      by_cases hk : ρ.slot.name = key
      · -- a second entry of that name would be hidden, but there is none
        simp [hk, lookup_eq_none hnot, hs]
      · rw [if_neg hk]

/-- The declaration of a name is found as before, in the same group. -/
theorem findSlot?_group {gs : List Group} (h : ∀ g ∈ gs, ρ.Tame g) {name : String} {found : Option Slot}
    (hf : findSlot? gs name = found) (hn : name ≠ ρ.name) :
    findSlot? (gs.map ρ.group) (if found = some ρ.slot then ρ.name else name) =
      found.map ρ.image := by
  induction gs with
  | nil =>
    cases hf
    rfl
  | cons g gs ih =>
    obtain ⟨hg, hgs⟩ := List.forall_mem_cons.mp h
    unfold findSlot? at hf ih ⊢
    rw [List.findSome?_cons] at hf
    rw [List.map_cons, List.findSome?_cons]
    cases hl : g.lookup name with
    | some slot =>
      rw [hl] at hf
      cases hf
      by_cases hs : slot = ρ.slot
      · have hname : name = slot.name := by
          obtain ⟨_, _, rfl, _⟩ := List.lookup_eq_some_iff.mp hl
          exact (hg.entry (name, slot) (by simp)).1
        have hown : g.lookup ρ.slot.name = some ρ.slot := by rw [← hs, ← hname, hl]
        simp only [hs, if_true, hg.lookup_name, hown, Option.map_some]
      · have hne : some slot ≠ some ρ.slot := fun he => hs (Option.some.inj he)
        rw [if_neg hne, hg.lookup_other hn, hl]
        simp [hs, Option.filter]
    | none =>
      rw [hl] at hf
      have hnone : (ρ.group g).lookup (if found = some ρ.slot then ρ.name else name) = none := by
        split
        · rename_i hfound
          -- the slot that is found has the name that this group does not have
          have hname : ρ.slot.name = name := by
            obtain ⟨g', hg', hl'⟩ := List.exists_of_findSome?_eq_some (hf.trans hfound)
            obtain ⟨_, _, rfl, _⟩ := List.lookup_eq_some_iff.mp hl'
            exact ((hgs _ hg').entry (name, ρ.slot) (by simp)).1.symm
          rw [hg.lookup_name, hname, hl]
          rfl
        · rw [hg.lookup_other hn, hl]
          rfl
      rw [hnone]
      exact ih hgs hf

theorem Tame.nil : ρ.Tame [] :=
  ⟨.nil, nofun⟩

/-- A leaf declares or shares the same slot. -/
theorem declareLeaf_group {g : Group} {s : Linking} {x : Leaf} (hg : ρ.Tame g)
    (hs : ρ.first ≤ s.nextSlot) (hn : x.name ≠ ρ.name)
    (hid : x.id ∈ ρ.ids ↔ (declareLeaf x.id x.name x.line g s).2.links.get? x.id = some ρ.slot) :
    ρ.Tame (declareLeaf x.id x.name x.line g s).1 ∧
      declareLeaf x.id (x.rename ρ.ids ρ.name).name x.line (ρ.group g) (ρ.linking s) =
        (ρ.group (declareLeaf x.id x.name x.line g s).1,
          ρ.linking (declareLeaf x.id x.name x.line g s).2) := by
  have hname : (x.rename ρ.ids ρ.name).name = if x.id ∈ ρ.ids then ρ.name else x.name := rfl
  rw [hname]
  unfold declareLeaf at hid ⊢
  cases hl : g.lookup x.name with
  | some slot =>
    simp only [hl, Links.get?_insert, if_true, Option.some.injEq] at hid
    refine ⟨hg, ?_⟩
    have hfound : (ρ.group g).lookup (if x.id ∈ ρ.ids then ρ.name else x.name) =
        some (ρ.image slot) := by
      by_cases hm : x.id ∈ ρ.ids
      · have hslot := hid.mp hm
        have hkey : ρ.slot.name = x.name := by
          obtain ⟨_, _, rfl, _⟩ := List.lookup_eq_some_iff.mp hl
          rw [← hslot]
          exact (hg.entry (x.name, slot) (by simp)).1.symm
        rw [if_pos hm, hg.lookup_name, hkey, hl, hslot, if_pos rfl]
      · have hslot : slot ≠ ρ.slot := fun h => hm (hid.mpr h)
        rw [if_neg hm, hg.lookup_other hn, hl]
        simp [hslot, Option.filter]
    rw [hfound]
    rfl
  | none =>
    simp only [hl, Links.get?_insert, if_true, Option.some.injEq] at hid
    have hnot : x.name ∉ g.map Prod.fst := by
      intro hm
      obtain ⟨e, he, hkey⟩ := List.mem_map.mp hm
      exact List.lookup_eq_none_iff.mp hl e he |> fun h => by simp [hkey] at h
    refine ⟨⟨List.nodup_cons.mpr ⟨hnot, hg.nodup⟩,
      List.forall_mem_cons.mpr ⟨⟨rfl, hn⟩, hg.entry⟩⟩, ?_⟩
    have hnew : (ρ.group g).lookup (if x.id ∈ ρ.ids then ρ.name else x.name) = none := by
      by_cases hm : x.id ∈ ρ.ids
      · have hkey : ρ.slot.name = x.name := by rw [← hid.mp hm]
        rw [if_pos hm, hg.lookup_name, hkey, hl]
        rfl
      · rw [if_neg hm, hg.lookup_other hn, hl]
        rfl
    have himage : ρ.image ⟨s.nextSlot, x.name, x.line⟩ =
        ⟨ρ.number s.nextSlot, if x.id ∈ ρ.ids then ρ.name else x.name, x.line⟩ := by
      unfold image Slot.rename Slot.renumber number
      by_cases hm : x.id ∈ ρ.ids
      · rw [if_pos (hid.mp hm), if_pos hm]
      · rw [if_neg fun h => hm (hid.mpr h), if_neg hm]
    have hkey : (if (⟨s.nextSlot, x.name, x.line⟩ : Slot) = ρ.slot then ρ.name else x.name) =
        if x.id ∈ ρ.ids then ρ.name else x.name := by
      simp only [hid]
    have hlinking : ρ.linking ⟨s.links.insert x.id ⟨s.nextSlot, x.name, x.line⟩, s.nextSlot + 1⟩ =
        ⟨(ρ.linking s).links.insert x.id (ρ.image ⟨s.nextSlot, x.name, x.line⟩),
          (ρ.linking s).nextSlot + 1⟩ := by
      unfold linking
      rw [number_succ hs]
      rfl
    simp only [hnew, group_cons, hkey, hlinking, himage]
    rfl

theorem declareLeaves_group {xs : List Leaf} {g : Group} {s t : Linking} {l : Links}
    (hg : ρ.Tame g) (hs : ρ.first ≤ s.nextSlot) (hn : (leafIds xs).Nodup)
    (ht : t = (declareLeaves xs g s).2)
    (hl : ∀ x ∈ xs, l.get? x.id = t.links.get? x.id)
    (hx : ∀ x ∈ xs, (x.id ∈ ρ.ids ↔ l.get? x.id = some ρ.slot) ∧ x.name ≠ ρ.name) :
    ρ.Tame (declareLeaves xs g s).1 ∧
      declareLeaves (xs.map (·.rename ρ.ids ρ.name)) (ρ.group g) (ρ.linking s) =
        (ρ.group (declareLeaves xs g s).1, ρ.linking t) := by
  induction xs generalizing g s with
  | nil =>
    subst ht
    exact ⟨hg, rfl⟩
  | cons x xs ih =>
    obtain ⟨hnot, hnodup⟩ := List.nodup_cons.mp hn
    obtain ⟨⟨hid, hne⟩, hrest⟩ := List.forall_mem_cons.mp hx
    obtain ⟨hfirst, hothers⟩ := List.forall_mem_cons.mp hl
    -- the leaves that come later do not link this one again
    have hlater := (declareLeaves_adds (s := (declareLeaf x.id x.name x.line g s).2)
      (g := (declareLeaf x.id x.name x.line g s).1) xs).others x.id hnot
    rw [hfirst, ht] at hid
    obtain ⟨htame, hdeclare⟩ := declareLeaf_group hg hs hne (hid.trans (by rw [← hlater]; rfl))
    have hle : s.nextSlot ≤ (declareLeaf x.id x.name x.line g s).2.nextSlot := declareLeaf_adds.le
    obtain ⟨htame', hdeclare'⟩ := ih htame (Nat.le_trans hs hle) hnodup ht hothers hrest
    refine ⟨htame', ?_⟩
    have hstep : declareLeaves ((x :: xs).map (·.rename ρ.ids ρ.name)) (ρ.group g) (ρ.linking s) =
        declareLeaves (xs.map (·.rename ρ.ids ρ.name))
          (declareLeaf x.id (x.rename ρ.ids ρ.name).name x.line (ρ.group g) (ρ.linking s)).1
          (declareLeaf x.id (x.rename ρ.ids ρ.name).name x.line (ρ.group g) (ρ.linking s)).2 := rfl
    rw [hstep, hdeclare]
    exact hdeclare'

/-- Some occurrences are linked alike: where linking has come to the same place in both programs, it comes
to the same place behind them. -/
def Carries (ρ : Renaming) (groups : List (List Declared)) (uses : List QName) (ids : List Nat)
    (gs gs' : List Group) (s s' t t' : Linking) : Prop :=
  Linking.Resolves (fun l => ρ.Marks l groups uses → ρ.Meets gs gs' s s' → t' = ρ.linking t) ids s t

section

variable {groups groups' : List (List Declared)} {uses uses' : List QName} {xs ys : List Nat}
  {gs gs' : List Group} {s s' t t' r r' : Linking}

theorem Carries.seq (h : ρ.Carries groups uses xs gs gs' s s' t t')
    (h' : ρ.Carries groups' uses' ys gs gs' t t' r r') :
    ρ.Carries (groups ++ groups') (uses ++ uses') (xs ++ ys) gs gs' s s' r r' := by
  have hle := h.1.le
  refine (Linking.Resolves.seq h h').mono fun l ⟨hl, hl'⟩ hm hs => ?_
  obtain ⟨hm, hm'⟩ := marks_append.mp hm
  exact hl' hm' ⟨hs.tame, Nat.le_trans hs.first hle, hs.groups, hl hm hs⟩

theorem Carries.perm (h : ρ.Carries groups uses xs gs gs' s s' t t') (hp : xs.Perm ys) :
    ρ.Carries groups uses ys gs gs' s s' t t' :=
  Linking.Resolves.perm h hp

theorem Carries.refl (h : t' = s') : ρ.Carries groups uses [] gs gs' s s' s t' :=
  .nil fun _ _ hs => h.trans hs.linking

/-- A group in front of the form that sees it. -/
theorem Carries.enter {g : List Declared} (ps : List Pattern)
    (hg : g.map Declared.leaf = patternsLeaves ps)
    (h : ρ.Carries groups uses ys (enterGroup ps gs s).1
      (enterGroup (patternsRename ρ.ids ρ.name ps) gs' s').1 (enterGroup ps gs s).2
      (enterGroup (patternsRename ρ.ids ρ.name ps) gs' s').2 t t') :
    ρ.Carries (g :: groups) uses (leafIds (patternsLeaves ps) ++ ys) gs gs' s s' t t' := by
  have henter : ∀ ps gs s, enterGroup ps gs s = ((declareLeaves (patternsLeaves ps) [] s).1 :: gs,
      (declareLeaves (patternsLeaves ps) [] s).2) := by
    intro ps gs s
    rw [← declarePatterns_eq]
    rfl
  rw [henter, henter, patternsLeaves_rename] at h
  have hadds := declareLeaves_adds (g := []) (s := s) (patternsLeaves ps)
  have hdeclare : Linking.Resolves (fun l => (leafIds (patternsLeaves ps)).Nodup ∧
      ∀ x ∈ patternsLeaves ps, l.get? x.id =
        (declareLeaves (patternsLeaves ps) [] s).2.links.get? x.id)
      (leafIds (patternsLeaves ps)) s (declareLeaves (patternsLeaves ps) [] s).2 :=
    ⟨hadds, fun hn _ l hl => ⟨hn, fun x hx => hl x.id (List.mem_map_of_mem hx)⟩⟩
  refine (hdeclare.seq h).mono fun l ⟨⟨hn, hl⟩, hrest⟩ hm hs => ?_
  have hmarks : ∀ x ∈ patternsLeaves ps,
      (x.id ∈ ρ.ids ↔ l.get? x.id = some ρ.slot) ∧ x.name ≠ ρ.name := by
    intro x hx
    rw [← hg] at hx
    obtain ⟨d, hd, rfl⟩ := List.mem_map.mp hx
    obtain ⟨hid, hne, -⟩ := hm.leaf g List.mem_cons_self d hd
    exact ⟨hid, hne⟩
  obtain ⟨htame, hboth⟩ := declareLeaves_group Tame.nil hs.first hn rfl hl hmarks
  have hnil : ρ.group [] = [] := rfl
  rw [hnil, ← hs.linking] at hboth
  refine hrest hm.tail ⟨List.forall_mem_cons.mpr ⟨htame, hs.tame⟩, Nat.le_trans hs.first hadds.le, ?_,
    ?_⟩
  · rw [hboth, hs.groups]
    rfl
  · rw [hboth]

theorem linkName_carries (n : QName) :
    ρ.Carries [] [n] [n.id] gs gs' s s' (linkName gs n s)
      (linkName gs' (n.rename ρ.ids ρ.name) s') := by
  refine (linkName_resolves n).mono fun l ⟨_, hl⟩ hm hs => ?_
  obtain ⟨hid, hne, -⟩ := hm.use n List.mem_cons_self
  rw [hl] at hid
  obtain ⟨htame, -, rfl, rfl⟩ := hs
  have hkey : (n.rename ρ.ids ρ.name).id = n.id := by
    unfold QName.rename
    split <;> rfl
  have hfound : (n.rename ρ.ids ρ.name).single?.bind (findSlot? (gs.map ρ.group)) =
      (n.single?.bind (findSlot? gs)).map ρ.image := by
    cases hn : n.single? with
    | none =>
      have hnot : n.id ∉ ρ.ids := fun h => by simp [hn] at hid; exact hid h
      rw [QName.rename, if_neg hnot, hn]
      rfl
    | some name =>
      have hparts : n.parts = [name] := by
        unfold QName.single? at hn
        split at hn
        · rename_i hp
          cases hn
          exact hp
        · cases hn
      rw [hparts] at hne
      have hname : name ≠ ρ.name := fun h => hne (h ▸ rfl)
      rw [hn, Option.bind_some] at hid
      have hsingle : (n.rename ρ.ids ρ.name).single? =
          some (if findSlot? gs name = some ρ.slot then ρ.name else name) := by
        unfold QName.rename
        by_cases hm : n.id ∈ ρ.ids
        · rw [if_pos hm, if_pos (hid.mp hm)]
          rfl
        · rw [if_neg hm, if_neg fun h => hm (hid.mpr h), hn]
      rw [hsingle, Option.bind_some, Option.bind_some]
      exact findSlot?_group htame rfl hname
  unfold linkName
  rw [hfound, hkey]
  cases n.single?.bind (findSlot? gs) <;> rfl

end

end Renaming

section

variable {ρ : Renaming} {gs gs' : List Group} {s s' : Linking}

theorem linkBlock_carries {b : Block}
    (h : ∀ gs gs' s s', ρ.Carries b.innerGroups b.uses b.innerIds gs gs' s s' (linkBody gs b s)
      (linkBody gs' (b.rename ρ.ids ρ.name) s')) :
    ρ.Carries b.groups b.uses b.ids gs gs' s s' (linkBlock gs b s)
      (linkBlock gs' (b.rename ρ.ids ρ.name) s') := by
  unfold linkBlock
  rw [b.patterns_rename]
  exact (Renaming.Carries.enter b.patterns (map_leaf_declaredBy false _) (h _ _ _ _)).perm b.ids_perm

end

section

variable {ρ : Renaming}

mutual

theorem linkExpr_carries (e : Expr) (gs gs' : List Group) (s s' : Linking) :
    ρ.Carries e.groups e.uses e.ids gs gs' s s' (linkExpr gs e s)
      (linkExpr gs' (e.rename ρ.ids ρ.name) s') := by
  match e with
  | .call callee args line =>
    exact (linkExpr_carries callee gs gs' s s').seq (linkArgs_carries args gs gs' _ _)
  | .function params body line =>
    exact .enter params (map_leaf_declaredBy false _)
      (linkBlock_carries fun gs gs' s s' => linkBody_carries body gs gs' s s')
  | .list elements line => exact linkElements_carries elements gs gs' s s'
  | .literal _ _ => exact .refl rfl
  | .name n => exact Renaming.linkName_carries n
  | .self _ => exact .refl rfl

theorem linkArgs_carries (es : List Expr) (gs gs' : List Group) (s s' : Linking) :
    ρ.Carries (exprsGroups es) (exprsUses es) (exprsIds es) gs gs' s s' (linkArgs gs es s)
      (linkArgs gs' (exprsRename ρ.ids ρ.name es) s') := by
  match es with
  | [] => exact .refl rfl
  | e :: es => exact (linkExpr_carries e gs gs' s s').seq (linkArgs_carries es gs gs' _ _)

theorem linkElements_carries (bs : List Block) (gs gs' : List Group) (s s' : Linking) :
    ρ.Carries (blocksGroups bs) (blocksUses bs) (blocksIds bs) gs gs' s s' (linkElements gs bs s)
      (linkElements gs' (blocksRename ρ.ids ρ.name bs) s') := by
  match bs with
  | [] => exact .refl rfl
  | b :: bs =>
    exact (linkBlock_carries fun gs gs' s s' => linkBody_carries b gs gs' s s').seq
      (linkElements_carries bs gs gs' _ _)

theorem linkBody_carries (b : Block) (gs gs' : List Group) (s s' : Linking) :
    ρ.Carries b.innerGroups b.uses b.innerIds gs gs' s s' (linkBody gs b s)
      (linkBody gs' (b.rename ρ.ids ρ.name) s') := by
  match b with
  | .result e => exact linkExpr_carries e gs gs' s s'
  | .bind p value _ rest =>
    exact (linkBlock_carries fun gs gs' s s' => linkBody_carries value gs gs' s s').seq
      (linkBody_carries rest gs gs' _ _)

end

mutual

theorem linkDecls_carries (ds : List Decl) (gs gs' : List Group) (s s' : Linking) :
    ρ.Carries (declsGroups ds) (declsUses ds) (declsInnerIds ds) gs gs' s s' (linkDecls gs ds s)
      (linkDecls gs' (declsRename ρ.ids ρ.name ds) s') := by
  match ds with
  | [] => exact .refl rfl
  | d :: ds => exact (linkDecl_carries d gs gs' s s').seq (linkDecls_carries ds gs gs' _ _)

theorem linkDecl_carries (d : Decl) (gs gs' : List Group) (s s' : Linking) :
    ρ.Carries d.groups d.uses d.innerIds gs gs' s s' (linkDecl gs d s)
      (linkDecl gs' (d.rename ρ.ids ρ.name) s') := by
  match d with
  | .space ns | .type _ _ _ (some ns) => exact linkNamespace_carries ns gs gs' s s'
  | .type _ _ _ none => exact .refl rfl
  | .binding _ value _ =>
    exact linkBlock_carries fun gs gs' s s' => linkBody_carries value gs gs' s s'

theorem linkNamespace_carries (ns : NamespaceDecl) (gs gs' : List Group) (s s' : Linking) :
    ρ.Carries ns.groups ns.uses ns.ids gs gs' s s' (linkNamespace gs ns s)
      (linkNamespace gs' (ns.rename ρ.ids ρ.name) s') := by
  match ns with
  | .mk _ _ decls =>
    unfold NamespaceDecl.rename linkNamespace
    rw [bindingPatterns_rename]
    exact (Renaming.Carries.enter (bindingPatterns decls) (map_leaf_declsDeclared decls)
      (linkDecls_carries decls _ _ _ _)).perm (declsIds_perm decls)

end

/-- The program with the declaration renamed is linked alike. -/
theorem Program.link_rename {p : Program} (hp : p.ids.Nodup)
    (hm : ρ.Marks (p.link ρ.first).links p.groups p.uses) :
    (p.rename ρ.ids ρ.name).link ρ.first' = ρ.linking (p.link ρ.first) := by
  have hstart : ρ.Meets [] [] ⟨.empty, ρ.first⟩ ⟨.empty, ρ.first'⟩ := by
    refine ⟨nofun, Nat.le_refl _, rfl, ?_⟩
    unfold Renaming.linking Renaming.number
    rw [Nat.add_sub_cancel]
    rfl
  have hnone : ∀ id, (Links.empty).get? id = none := fun _ => rfl
  obtain ⟨imports, ⟨name, isPublic, decls⟩, trailing⟩ := p
  unfold Program.ids at hp
  unfold Program.groups Program.uses at hm
  cases trailing with
  | none =>
    rw [List.append_nil] at hp
    rw [List.append_nil, List.append_nil] at hm
    have h := linkNamespace_carries (ρ := ρ) (.mk name isPublic decls) [] []
      ⟨.empty, ρ.first⟩ ⟨.empty, ρ.first'⟩
    exact h.2 hp (fun id _ => hnone id) _ (fun _ _ => rfl) hm hstart
  | some c =>
    -- the call at the end sees the group of the root
    have h : ρ.Carries (declsDeclared decls :: (declsGroups decls ++ c.toExpr.groups))
        (declsUses decls ++ c.toExpr.uses) _ [] [] ⟨.empty, ρ.first⟩ ⟨.empty, ρ.first'⟩ _ _ :=
      .enter (bindingPatterns decls) (map_leaf_declsDeclared decls)
        ((linkDecls_carries decls _ _ _ _).seq (linkExpr_carries c.toExpr _ _ _ _))
    have hall := h.perm
      (.trans (.of_eq (List.append_assoc _ _ _).symm) (.append_right _ (declsIds_perm decls)))
    have hlink := hall.2 hp (fun id _ => hnone id) _ (fun _ _ => rfl) hm hstart
    rw [← bindingPatterns_rename] at hlink
    exact hlink

end

end MatchLang
