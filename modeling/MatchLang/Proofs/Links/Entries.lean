import Mathlib.Data.List.Forall2
import MatchLang.Proofs.Grammar.Joining
import MatchLang.Proofs.Grammar.Numbering

/-! The entries that linking makes. Every leaf of a pattern gives one, and so does a use of one part that
a group around it declares; since the names of a program are numbered apart, no entry hides another. -/

namespace MatchLang

/-- The name that an occurrence is linked under: that of a leaf, and that of a use of one part which a
group around it declares. -/
def Mention.linked? : Mention → Option String
  | .leaf x => some x.name
  | .use around n => n.single?.filter fun s => around.any (·.contains s)
  | .title _ => none

/-- The number and the name of each linked occurrence. -/
def linkedOf (os : List Mention) : List (Nat × String) :=
  os.filterMap fun o => o.linked?.map (o.id, ·)

def linkedLeaves (ps : List Pattern) : List (Nat × String) :=
  (patternsLeaves ps).map fun x => (x.id, x.name)

/-- The entries made so far, with the names of their slots. -/
def Linking.named (s : Linking) : List (Nat × String) :=
  s.links.entries.map fun e => (e.1, e.2.name)

@[simp] theorem linkedOf_append (xs ys : List Mention) :
    linkedOf (xs ++ ys) = linkedOf xs ++ linkedOf ys :=
  List.filterMap_append

@[simp] theorem linkedOf_title (n : QName) (os : List Mention) :
    linkedOf (.title n :: os) = linkedOf os :=
  rfl

@[simp] theorem linkedLeaves_nil : linkedLeaves [] = [] :=
  rfl

@[simp] theorem linkedLeaves_cons (p : Pattern) (ps : List Pattern) :
    linkedLeaves (p :: ps) = linkedLeaves [p] ++ linkedLeaves ps := by
  simp [linkedLeaves, patternsLeaves]

mutual

theorem Pattern.linkedOf_mentions (p : Pattern) : linkedOf p.mentions = linkedLeaves [p] := by
  match p with
  | .wildcard => rfl
  | .name _ _ _ => rfl
  | .literal _ _ => rfl
  | .list items =>
    rw [Pattern.mentions, patternsLinkedOf_mentions items]
    simp [linkedLeaves, patternsLeaves, Pattern.leaves]
  | .type n params =>
    rw [Pattern.mentions, linkedOf_title, patternsLinkedOf_mentions params]
    simp [linkedLeaves, patternsLeaves, Pattern.leaves]

theorem patternsLinkedOf_mentions (ps : List Pattern) :
    linkedOf (patternsMentions ps) = linkedLeaves ps := by
  match ps with
  | [] => rfl
  | p :: ps =>
    rw [patternsMentions, linkedOf_append, p.linkedOf_mentions, patternsLinkedOf_mentions ps,
      ← linkedLeaves_cons]

end

/-- The group has a slot for each of the names, which goes by that name, and for no other. -/
def Group.Holds (g : Group) (names : List String) : Prop :=
  ∀ s, (g.lookup s).map Slot.name = if s ∈ names then some s else none

theorem Group.Holds.congr {g : Group} {names names' : List String} (h : g.Holds names)
    (hn : ∀ s, s ∈ names' ↔ s ∈ names) : g.Holds names' := by
  intro s
  rw [h s]
  simp only [hn]

theorem declareLeaf_holds (x : Leaf) {g : Group} {names : List String} (s : Linking)
    (h : g.Holds names) :
    (declareLeaf x.id x.name x.line g s).1.Holds (x.name :: names) ∧
      (declareLeaf x.id x.name x.line g s).2.named = (x.id, x.name) :: s.named := by
  have hx := h x.name
  unfold declareLeaf
  cases hg : g.lookup x.name with
  | some slot =>
    rw [hg, Option.map_some] at hx
    obtain ⟨hmem, hname⟩ : x.name ∈ names ∧ slot.name = x.name := by
      split at hx
      · next hmem => exact ⟨hmem, Option.some.inj hx⟩
      · cases hx
    refine ⟨h.congr fun t => ?_, by simp [Linking.named, Links.insert, hname]⟩
    rw [List.mem_cons, or_iff_right_of_imp fun ht => ht ▸ hmem]
  | none =>
    refine ⟨fun t => ?_, rfl⟩
    by_cases ht : t = x.name
    · simp [ht]
    · have hb : (t == x.name) = false := by simp [ht]
      simp only [List.lookup_cons, hb, List.mem_cons, ht, false_or]
      exact h t

theorem declareLeaves_holds (xs : List Leaf) {g : Group} {names : List String} (s : Linking)
    (h : g.Holds names) :
    (declareLeaves xs g s).1.Holds (xs.map Leaf.name ++ names) ∧
      (declareLeaves xs g s).2.named.Perm (xs.map (fun x => (x.id, x.name)) ++ s.named) := by
  induction xs generalizing g names s with
  | nil => exact ⟨h, .refl _⟩
  | cons x xs ih =>
    obtain ⟨hx, hnamed⟩ := declareLeaf_holds x s h
    obtain ⟨hxs, hrest⟩ := ih (declareLeaf x.id x.name x.line g s).2 hx
    rw [hnamed] at hrest
    exact ⟨hxs.congr fun t => List.perm_middle.symm.mem_iff, hrest.trans List.perm_middle⟩

/-- The groups hold what the groups around a form declare. -/
abbrev GroupsHold (gs : List Group) (around : List (List String)) : Prop :=
  List.Forall₂ Group.Holds gs around

theorem enterGroup_holds (ps : List Pattern) {gs : List Group} {around : List (List String)}
    (s : Linking) (h : GroupsHold gs around) :
    GroupsHold (enterGroup ps gs s).1 (namesOf ps :: around) ∧
      (enterGroup ps gs s).2.named.Perm (linkedLeaves ps ++ s.named) := by
  have hnil : Group.Holds [] [] := fun _ => rfl
  obtain ⟨hg, hnamed⟩ := declareLeaves_holds (patternsLeaves ps) s hnil
  rw [List.append_nil] at hg
  rw [← declarePatterns_eq] at hg hnamed
  exact ⟨.cons hg h, hnamed⟩

theorem findSlot?_holds {gs : List Group} {around : List (List String)} (name : String)
    (h : GroupsHold gs around) :
    (findSlot? gs name).map Slot.name =
      if around.any (·.contains name) then some name else none := by
  unfold findSlot?
  induction h with
  | nil => rfl
  | @cons g names gs around hg _ ih =>
    have hname := hg name
    cases hl : g.lookup name with
    | some slot =>
      rw [hl, Option.map_some] at hname
      by_cases hm : name ∈ names
      · simpa [hl, hm] using hname
      · simp [hm] at hname
    | none =>
      rw [hl, Option.map_none] at hname
      by_cases hm : name ∈ names
      · simp [hm] at hname
      · simpa [hl, hm] using ih

section

variable {gs : List Group} {around : List (List String)} {s : Linking}

/-- A use is linked under the name of the slot that it is linked to. -/
theorem linked?_use (n : QName) (h : GroupsHold gs around) :
    (Mention.use around n).linked? = (n.single?.bind (findSlot? gs)).map Slot.name := by
  rw [Mention.linked?]
  cases n.single? with
  | none => rfl
  | some name => rw [Option.filter_some, Option.bind_some, findSlot?_holds name h]

theorem linkName_named (n : QName) (h : GroupsHold gs around) :
    (linkName gs n s).named = linkedOf [.use around n] ++ s.named := by
  have huse := linked?_use n h
  unfold linkName
  cases hf : n.single?.bind (findSlot? gs) with
  | none =>
    rw [hf] at huse
    simp [linkedOf, huse]
  | some slot =>
    rw [hf] at huse
    simp [linkedOf, huse, Mention.id, Linking.named, Links.insert]

/-- A block with its group, of which `linkBody` makes the entries but for those of the leaves. -/
theorem linkBlock_named (b : Block) (h : GroupsHold gs around)
    (hb : ∀ {gs around s}, GroupsHold gs around →
      (linkedLeaves b.patterns ++ (linkBody gs b s).named).Perm
        (linkedOf (b.mentions around) ++ s.named)) :
    (linkBlock gs b s).named.Perm
      (linkedOf (b.mentions (namesOf b.patterns :: around)) ++ s.named) := by
  obtain ⟨hin, hgroup⟩ := enterGroup_holds b.patterns s h
  have hbody := hb (s := (enterGroup b.patterns gs s).2) hin
  refine (List.perm_append_left_iff (linkedLeaves b.patterns)).mp (hbody.trans ?_)
  exact (hgroup.append_left _).trans (List.perm_append_comm_assoc _ _ _)

end

mutual

theorem linkExpr_named (e : Expr) {gs : List Group} {around : List (List String)} {s : Linking}
    (h : GroupsHold gs around) :
    (linkExpr gs e s).named.Perm (linkedOf (e.mentions around) ++ s.named) := by
  match e with
  | .call callee args _ =>
    have hcallee := linkExpr_named callee h (s := s)
    have hargs := linkArgs_named args h (s := linkExpr gs callee s)
    rw [Expr.mentions, linkedOf_append, List.append_assoc]
    exact (hargs.trans (hcallee.append_left _)).trans (List.perm_append_comm_assoc _ _ _)
  | .function params body _ =>
    obtain ⟨hin, hparams⟩ := enterGroup_holds params s h
    have hbody := linkBlock_named (s := (enterGroup params gs s).2) body hin
      (fun h => linkBody_named body h)
    rw [Expr.mentions, linkedOf_append, patternsLinkedOf_mentions, List.append_assoc]
    exact (hbody.trans (hparams.append_left _)).trans (List.perm_append_comm_assoc _ _ _)
  | .list elements _ => exact linkElements_named elements h
  | .literal _ _ => exact .refl _
  | .name n => exact .of_eq (linkName_named n h)
  | .self _ => exact .refl _

theorem linkArgs_named (es : List Expr) {gs : List Group} {around : List (List String)} {s : Linking}
    (h : GroupsHold gs around) :
    (linkArgs gs es s).named.Perm (linkedOf (exprsMentions around es) ++ s.named) := by
  match es with
  | [] => exact .refl _
  | e :: es =>
    have he := linkExpr_named e h (s := s)
    have hes := linkArgs_named es h (s := linkExpr gs e s)
    rw [exprsMentions, linkedOf_append, List.append_assoc]
    exact (hes.trans (he.append_left _)).trans (List.perm_append_comm_assoc _ _ _)

theorem linkElements_named (bs : List Block) {gs : List Group} {around : List (List String)}
    {s : Linking} (h : GroupsHold gs around) :
    (linkElements gs bs s).named.Perm (linkedOf (blocksMentions around bs) ++ s.named) := by
  match bs with
  | [] => exact .refl _
  | b :: bs =>
    have hb := linkBlock_named (s := s) b h (fun h => linkBody_named b h)
    have hbs := linkElements_named bs h (s := linkBlock gs b s)
    rw [blocksMentions, linkedOf_append, List.append_assoc]
    exact (hbs.trans (hb.append_left _)).trans (List.perm_append_comm_assoc _ _ _)

theorem linkBody_named (b : Block) {gs : List Group} {around : List (List String)} {s : Linking}
    (h : GroupsHold gs around) :
    (linkedLeaves b.patterns ++ (linkBody gs b s).named).Perm
      (linkedOf (b.mentions around) ++ s.named) := by
  match b with
  | .result e => exact linkExpr_named e h
  | .bind p value _ rest =>
    have hvalue := linkBlock_named (s := s) value h (fun h => linkBody_named value h)
    have hrest := linkBody_named rest h (s := linkBlock gs value s)
    rw [Block.patterns, linkedLeaves_cons, Block.mentions, linkedOf_append, linkedOf_append,
      p.linkedOf_mentions, List.append_assoc, List.append_assoc, List.append_assoc]
    refine .append_left _ ((hrest.trans (hvalue.append_left _)).trans ?_)
    exact List.perm_append_comm_assoc _ _ _

end

/-- The leaves that a declaration adds to the group that it stands in. -/
theorem linkedLeaves_bindingPatterns (d : Decl) (ds : List Decl) :
    linkedLeaves (bindingPatterns (d :: ds)) =
      linkedLeaves (bindingPatterns [d]) ++ linkedLeaves (bindingPatterns ds) := by
  cases d with
  | binding p value isPublic => exact linkedLeaves_cons p (bindingPatterns ds)
  | space ns => rfl
  | type n isPublic cases body => rfl

mutual

theorem linkDecls_named (ds : List Decl) {gs : List Group} {around : List (List String)} {s : Linking}
    (h : GroupsHold gs around) :
    (linkedLeaves (bindingPatterns ds) ++ (linkDecls gs ds s).named).Perm
      (linkedOf (declsMentions around ds) ++ s.named) := by
  match ds with
  | [] => exact .refl _
  | d :: ds =>
    have hd := linkDecl_named d h (s := s)
    have hds := linkDecls_named ds h (s := linkDecl gs d s)
    rw [linkedLeaves_bindingPatterns, declsMentions, linkedOf_append, List.append_assoc,
      List.append_assoc]
    refine (hds.append_left _).trans ((List.perm_append_comm_assoc _ _ _).trans ?_)
    exact (hd.append_left _).trans (List.perm_append_comm_assoc _ _ _)

theorem linkDecl_named (d : Decl) {gs : List Group} {around : List (List String)} {s : Linking}
    (h : GroupsHold gs around) :
    (linkedLeaves (bindingPatterns [d]) ++ (linkDecl gs d s).named).Perm
      (linkedOf (d.mentions around) ++ s.named) := by
  match d with
  | .space ns => exact linkNamespace_named ns h
  | .type _ _ _ (some ns) => exact linkNamespace_named ns h
  | .type _ _ _ none => exact .refl _
  | .binding p value _ =>
    have hvalue := linkBlock_named (s := s) value h (fun h => linkBody_named value h)
    rw [Decl.mentions, linkedOf_append, p.linkedOf_mentions, List.append_assoc]
    exact hvalue.append_left _

theorem linkNamespace_named (ns : NamespaceDecl) {gs : List Group} {around : List (List String)}
    {s : Linking} (h : GroupsHold gs around) :
    (linkNamespace gs ns s).named.Perm (linkedOf (ns.mentions around) ++ s.named) := by
  match ns with
  | .mk _ _ decls =>
    obtain ⟨hin, hgroup⟩ := enterGroup_holds (bindingPatterns decls) s h
    have hdecls := linkDecls_named decls hin (s := (enterGroup (bindingPatterns decls) gs s).2)
    refine (List.perm_append_left_iff (linkedLeaves (bindingPatterns decls))).mp (hdecls.trans ?_)
    exact (hgroup.append_left _).trans (List.perm_append_comm_assoc _ _ _)

end

theorem linkedOf_titles (ns : List QName) : linkedOf (ns.map .title) = [] := by
  induction ns with
  | nil => rfl
  | cons n ns ih => exact ih

theorem linkedOf_imports (is : List Import) : linkedOf (importsMentions is) = [] := by
  induction is with
  | nil => rfl
  | cons i is ih => rw [importsMentions, linkedOf_append, linkedOf_titles, ih, List.append_nil]

/-- Linking a program makes an entry for each of its linked occurrences, and no other. -/
theorem Program.link_named (p : Program) (nextSlot : Nat) :
    (p.link nextSlot).named.Perm (linkedOf p.mentions) := by
  obtain ⟨imports, ⟨name, isPublic, decls⟩, trailing⟩ := p
  have hroot := linkNamespace_named (.mk name isPublic decls) (s := ⟨.empty, nextSlot⟩) .nil
  have hempty : Linking.named ⟨.empty, nextSlot⟩ = [] := rfl
  rw [hempty, List.append_nil] at hroot
  rw [Program.mentions, linkedOf_append, linkedOf_append, linkedOf_imports, linkedOf_title,
    List.nil_append]
  cases trailing with
  | none => exact hroot.trans (.of_eq (List.append_nil _).symm)
  | some c =>
    obtain ⟨hin, _⟩ := enterGroup_holds (bindingPatterns decls) ⟨.empty, nextSlot⟩ .nil
    have hcall := linkExpr_named c.toExpr hin
      (s := linkNamespace [] (.mk name isPublic decls) ⟨.empty, nextSlot⟩)
    exact (hcall.trans (hroot.append_left _)).trans List.perm_append_comm

section

/-! With every number on one entry, what is found under a number is what was entered for it. -/

theorem linkedOf_sublist (os : List Mention) :
    ((linkedOf os).map Prod.fst).Sublist (mentionIds os) := by
  induction os with
  | nil => exact .slnil
  | cons o os ih =>
    rw [linkedOf, List.filterMap_cons]
    cases o.linked? with
    | none => exact ih.cons _
    | some name => exact ih.cons_cons _

variable {l : Links} (h : (l.entries.map Prod.fst).Nodup)

include h

theorem Links.get?_eq_some_iff {id : Nat} {slot : Slot} :
    l.get? id = some slot ↔ (id, slot) ∈ l.entries := by
  unfold Links.get?
  induction he : l.entries generalizing l with
  | nil => simp
  | cons e es ih =>
    rw [he, List.map_cons, List.nodup_cons] at h
    have hes := ih (l := ⟨es⟩) h.2 rfl
    by_cases hid : id = e.1
    · have hout : (id, slot) ∉ es := fun hm => h.1 (hid ▸ List.mem_map_of_mem hm)
      subst hid
      rw [List.lookup_cons, beq_self_eq_true, List.mem_cons, or_iff_left hout, Prod.ext_iff]
      simp [eq_comm]
    · have hb : (id == e.1) = false := by simp [hid]
      rw [List.lookup_cons, hb, hes, List.mem_cons]
      simp [Prod.ext_iff, hid]

theorem Links.size_eq : l.size = l.entries.length := by
  have hdups : ∀ xs : List Nat, xs.Nodup → xs.eraseDups = xs := by
    intro xs hxs
    induction xs with
    | nil => rfl
    | cons x xs ih =>
      obtain ⟨hx, hxs⟩ := List.nodup_cons.mp hxs
      have hfilter : xs.filter (fun b => !b == x) = xs :=
        List.filter_eq_self.mpr fun b hb => by simp [ne_of_mem_of_not_mem hb hx]
      rw [List.eraseDups_cons, hfilter, ih hxs]
  rw [Links.size, Links.ids, hdups _ h, List.length_map]

end

/-- The names of a program that has been read are numbered apart, but for the body of a type, which has
the name of the type. Therefore no entry that linking makes hides another: it makes one for each leaf and
one for each use that a group around it declares, of that name, and none for anything else. -/
theorem names_are_linked_apart {source : String} {p : Program} (h : Program.read source = .ok p)
    (nextSlot : Nat) :
    (mentionIds p.mentions).Nodup ∧ p.root.Titled ∧
      ((p.link nextSlot).links.entries.map Prod.fst).Nodup ∧
      (∀ id name, (∃ slot, (p.link nextSlot).links.get? id = some slot ∧ slot.name = name) ↔
        ∃ o ∈ p.mentions, o.id = id ∧ o.linked? = some name) ∧
      (p.link nextSlot).links.size = p.mentions.countP fun o => o.linked?.isSome := by
  obtain ⟨ls, _, hp⟩ := Program.read_eq_ok.mp h
  have hapart : (mentionIds p.mentions).Nodup := by
    rw [Program.mentionIds_eq hp]
    exact List.nodup_range
  have hnamed := p.link_named nextSlot
  have hkeys : ((p.link nextSlot).links.entries.map Prod.fst).Perm
      ((linkedOf p.mentions).map Prod.fst) := by
    have := hnamed.map Prod.fst
    rwa [Linking.named, List.map_map] at this
  have hnodup := hkeys.nodup_iff.mpr (hapart.sublist (linkedOf_sublist _))
  refine ⟨hapart, Program.titled_of_ofLexemes hp, hnodup, fun id name => ?_, ?_⟩
  · have hmem := hnamed.mem_iff (a := (id, name))
    simp only [Linking.named, linkedOf, List.mem_map, List.mem_filterMap, Option.map_eq_some_iff,
      Prod.mk.injEq] at hmem
    simp only [Links.get?_eq_some_iff hnodup]
    constructor
    · rintro ⟨slot, hslot, hname⟩
      obtain ⟨o, ho, _, hlinked, hid, rfl⟩ := hmem.mp ⟨_, hslot, rfl, hname⟩
      exact ⟨o, ho, hid, hlinked⟩
    · rintro ⟨o, ho, hid, hlinked⟩
      obtain ⟨⟨_, slot⟩, hslot, rfl, hname⟩ := hmem.mpr ⟨o, ho, name, hlinked, hid, rfl⟩
      exact ⟨slot, hslot, hname⟩
  · have hlength := hnamed.length_eq
    rw [Linking.named, List.length_map] at hlength
    rw [Links.size_eq hnodup, hlength, linkedOf, List.length_filterMap_eq_countP]
    simp only [Option.isSome_map]

def typeWithBody : String := "type T = A { let f = { x -> x } } (T.f T)"

/-- Of the seven names of a program with a type that has a body, three are linked. -/
theorem typeWithBody_links_three_names :
    ∃ p, Program.read typeWithBody = .ok p ∧ mentionIds p.mentions = [0, 1, 2, 3, 4, 5, 6] ∧
      p.root.Titled ∧ (p.mentions.countP fun o => o.linked?.isSome) = 3 := by
  have hread : ((Program.read typeWithBody).toOption.map fun p =>
      (mentionIds p.mentions, (p.link 0).links.size)) = some ([0, 1, 2, 3, 4, 5, 6], 3) := by
    decide +kernel
  cases hp : Program.read typeWithBody with
  | error e =>
    rw [hp] at hread
    cases hread
  | ok p =>
    rw [hp] at hread
    obtain ⟨hids, hsize⟩ := Prod.ext_iff.mp (Option.some.inj hread)
    obtain ⟨_, htitled, _, _, hcount⟩ := names_are_linked_apart hp 0
    exact ⟨p, rfl, hids, htitled, hcount.symm.trans hsize⟩

end MatchLang
