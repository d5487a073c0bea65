import MatchLang.Links

/-! The occurrences of names. Those that are linked stand in patterns, where they declare a name, and in
expressions, where they use one; the names of namespaces, types, cases and imports are not linked. -/

namespace MatchLang

/-- A name in a pattern. -/
structure Leaf where
  id : Nat
  name : String
  line : Nat

mutual

def Pattern.leaves : Pattern → List Leaf
  | .wildcard => []
  | .name id name line => [{ id, name, line }]
  | .literal _ _ => []
  | .list items => patternsLeaves items
  | .type _ params => patternsLeaves params

def patternsLeaves : List Pattern → List Leaf
  | [] => []
  | p :: ps => p.leaves ++ patternsLeaves ps

end

def leafIds (xs : List Leaf) : List Nat :=
  xs.map Leaf.id

mutual

/-- The numbers of the occurrences in an expression, in the order of the text. -/
def Expr.ids : Expr → List Nat
  | .call callee args _ => callee.ids ++ exprsIds args
  | .function params body _ => leafIds (patternsLeaves params) ++ body.ids
  | .list elements _ => blocksIds elements
  | .literal _ _ => []
  | .name n => [n.id]
  | .self _ => []

def exprsIds : List Expr → List Nat
  | [] => []
  | e :: es => e.ids ++ exprsIds es

def blocksIds : List Block → List Nat
  | [] => []
  | b :: bs => b.ids ++ blocksIds bs

def Block.ids : Block → List Nat
  | .result e => e.ids
  | .bind p value _ rest => leafIds p.leaves ++ (value.ids ++ rest.ids)

end

mutual

def declsIds : List Decl → List Nat
  | [] => []
  | d :: ds => d.ids ++ declsIds ds

def Decl.ids : Decl → List Nat
  | .space ns => ns.ids
  | .type _ _ _ (some ns) => ns.ids
  | .type _ _ _ none => []
  | .binding p value _ => leafIds p.leaves ++ value.ids

def NamespaceDecl.ids : NamespaceDecl → List Nat
  | .mk _ _ decls => declsIds decls

end

def Program.ids (p : Program) : List Nat :=
  p.root.ids ++ match p.trailing with
    | some c => c.toExpr.ids
    | none => []

/-- A name that a program has somewhere. A use comes with the names that each group around it declares,
the innermost group first. -/
inductive Mention where
  | leaf (leaf : Leaf)
  | use (around : List (List String)) (name : QName)
  | title (name : QName)

def Mention.id : Mention → Nat
  | .leaf x => x.id
  | .use _ n => n.id
  | .title n => n.id

def mentionIds (xs : List Mention) : List Nat :=
  xs.map Mention.id

/-- The names that some patterns declare. -/
def namesOf (ps : List Pattern) : List String :=
  (patternsLeaves ps).map Leaf.name

mutual

def Pattern.mentions : Pattern → List Mention
  | .wildcard => []
  | .name id name line => [.leaf { id, name, line }]
  | .literal _ _ => []
  | .list items => patternsMentions items
  | .type n params => .title n :: patternsMentions params

def patternsMentions : List Pattern → List Mention
  | [] => []
  | p :: ps => p.mentions ++ patternsMentions ps

end

mutual

/-- The names in an expression, in the order of the text. -/
def Expr.mentions (around : List (List String)) : Expr → List Mention
  | .call callee args _ => callee.mentions around ++ exprsMentions around args
  | .function params body _ =>
    patternsMentions params ++ body.mentions (namesOf body.patterns :: namesOf params :: around)
  | .list elements _ => blocksMentions around elements
  | .literal _ _ => []
  | .name n => [.use around n]
  | .self _ => []

def exprsMentions (around : List (List String)) : List Expr → List Mention
  | [] => []
  | e :: es => e.mentions around ++ exprsMentions around es

def blocksMentions (around : List (List String)) : List Block → List Mention
  | [] => []
  | b :: bs => b.mentions (namesOf b.patterns :: around) ++ blocksMentions around bs

/-- The names in a block whose own group is already the innermost one. -/
def Block.mentions (around : List (List String)) : Block → List Mention
  | .result e => e.mentions around
  | .bind p value _ rest =>
    p.mentions ++
      (value.mentions (namesOf value.patterns :: around) ++ rest.mentions around)

end

mutual

def declsMentions (around : List (List String)) : List Decl → List Mention
  | [] => []
  | d :: ds => d.mentions around ++ declsMentions around ds

/-- The body of a type has the name of the type, which is listed once. -/
def Decl.mentions (around : List (List String)) : Decl → List Mention
  | .space ns => .title ns.name :: ns.mentions around
  | .type n _ _ (some ns) => .title n :: ns.mentions around
  | .type n _ _ none => [.title n]
  | .binding p value _ => p.mentions ++ value.mentions (namesOf value.patterns :: around)

/-- The names in a namespace but for its own. -/
def NamespaceDecl.mentions (around : List (List String)) : NamespaceDecl → List Mention
  | .mk _ _ decls => declsMentions (namesOf (bindingPatterns decls) :: around) decls

end

def importsMentions : List Import → List Mention
  | [] => []
  | i :: is => i.names.map .title ++ importsMentions is

/-- All names of a program. That of the root is drawn after its declarations. -/
def Program.mentions (p : Program) : List Mention :=
  importsMentions p.imports ++ (p.root.mentions [] ++
    (.title p.root.name :: match p.trailing with
      | some c => c.toExpr.mentions [namesOf (bindingPatterns p.root.decls)]
      | none => []))

section

/-! What numbers the names have does not depend on the groups around them. -/

@[simp] theorem mentionIds_nil : mentionIds [] = [] :=
  rfl

@[simp] theorem mentionIds_cons (x : Mention) (xs : List Mention) :
    mentionIds (x :: xs) = x.id :: mentionIds xs :=
  rfl

@[simp] theorem mentionIds_append (xs ys : List Mention) :
    mentionIds (xs ++ ys) = mentionIds xs ++ mentionIds ys :=
  List.map_append

mutual

@[simp] theorem Expr.mentionIds_around (e : Expr) (g : List String) (gs : List (List String)) :
    mentionIds (e.mentions (g :: gs)) = mentionIds (e.mentions []) := by
  match e with
  | .call callee args _ =>
    simp only [Expr.mentions, mentionIds_append]
    rw [callee.mentionIds_around, exprsMentionIds_around args]
  | .function params body _ =>
    simp only [Expr.mentions, mentionIds_append]
    rw [body.mentionIds_around, body.mentionIds_around]
  | .list elements _ => exact blocksMentionIds_around elements g gs
  | .literal _ _ => rfl
  | .name _ => rfl
  | .self _ => rfl

@[simp] theorem exprsMentionIds_around (es : List Expr) (g : List String) (gs : List (List String)) :
    mentionIds (exprsMentions (g :: gs) es) = mentionIds (exprsMentions [] es) := by
  match es with
  | [] => rfl
  | e :: es =>
    simp only [exprsMentions, mentionIds_append]
    rw [e.mentionIds_around, exprsMentionIds_around es]

@[simp] theorem blocksMentionIds_around (bs : List Block) (g : List String) (gs : List (List String)) :
    mentionIds (blocksMentions (g :: gs) bs) = mentionIds (blocksMentions [] bs) := by
  match bs with
  | [] => rfl
  | b :: bs =>
    simp only [blocksMentions, mentionIds_append]
    rw [b.mentionIds_around, b.mentionIds_around, blocksMentionIds_around bs]

@[simp] theorem Block.mentionIds_around (b : Block) (g : List String) (gs : List (List String)) :
    mentionIds (b.mentions (g :: gs)) = mentionIds (b.mentions []) := by
  match b with
  | .result e => exact e.mentionIds_around g gs
  | .bind p value _ rest =>
    simp only [Block.mentions, mentionIds_append]
    rw [value.mentionIds_around, value.mentionIds_around, rest.mentionIds_around]

end

mutual

@[simp] theorem declsMentionIds_around (ds : List Decl) (g : List String) (gs : List (List String)) :
    mentionIds (declsMentions (g :: gs) ds) = mentionIds (declsMentions [] ds) := by
  match ds with
  | [] => rfl
  | d :: ds =>
    simp only [declsMentions, mentionIds_append]
    rw [d.mentionIds_around, declsMentionIds_around ds]

@[simp] theorem Decl.mentionIds_around (d : Decl) (g : List String) (gs : List (List String)) :
    mentionIds (d.mentions (g :: gs)) = mentionIds (d.mentions []) := by
  match d with
  | .space ns =>
    simp only [Decl.mentions, mentionIds_cons]
    rw [ns.mentionIds_around]
  | .type _ _ _ (some ns) =>
    simp only [Decl.mentions, mentionIds_cons]
    rw [ns.mentionIds_around]
  | .type _ _ _ none => rfl
  | .binding p value _ => simp [Decl.mentions]

@[simp] theorem NamespaceDecl.mentionIds_around (ns : NamespaceDecl) (g : List String)
    (gs : List (List String)) :
    mentionIds (ns.mentions (g :: gs)) = mentionIds (ns.mentions []) := by
  match ns with
  | .mk _ _ decls =>
    rw [NamespaceDecl.mentions, NamespaceDecl.mentions, declsMentionIds_around,
      declsMentionIds_around]

end

end

section

/-! The names that are linked are among all names. -/

mutual

theorem Pattern.leafIds_sublist (p : Pattern) :
    (leafIds p.leaves).Sublist (mentionIds p.mentions) := by
  match p with
  | .wildcard => exact .slnil
  | .name _ _ _ => exact .refl _
  | .literal _ _ => exact .slnil
  | .list items => exact patternsLeafIds_sublist items
  | .type _ params => exact (patternsLeafIds_sublist params).cons _

theorem patternsLeafIds_sublist (ps : List Pattern) :
    (leafIds (patternsLeaves ps)).Sublist (mentionIds (patternsMentions ps)) := by
  match ps with
  | [] => exact .slnil
  | p :: ps =>
    rw [patternsLeaves, patternsMentions, mentionIds_append, leafIds, List.map_append]
    exact p.leafIds_sublist.append (patternsLeafIds_sublist ps)

end

mutual

theorem Expr.ids_sublist (e : Expr) (gs : List (List String)) :
    e.ids.Sublist (mentionIds (e.mentions gs)) := by
  match e with
  | .call callee args _ =>
    rw [Expr.ids, Expr.mentions, mentionIds_append]
    exact (callee.ids_sublist gs).append (exprsIds_sublist args gs)
  | .function params body _ =>
    rw [Expr.ids, Expr.mentions, mentionIds_append]
    exact (patternsLeafIds_sublist params).append (body.ids_sublist _)
  | .list elements _ => exact blocksIds_sublist elements gs
  | .literal _ _ => exact .slnil
  | .name _ => exact .refl _
  | .self _ => exact .slnil

theorem exprsIds_sublist (es : List Expr) (gs : List (List String)) :
    (exprsIds es).Sublist (mentionIds (exprsMentions gs es)) := by
  match es with
  | [] => exact .slnil
  | e :: es =>
    rw [exprsIds, exprsMentions, mentionIds_append]
    exact (e.ids_sublist gs).append (exprsIds_sublist es gs)

theorem blocksIds_sublist (bs : List Block) (gs : List (List String)) :
    (blocksIds bs).Sublist (mentionIds (blocksMentions gs bs)) := by
  match bs with
  | [] => exact .slnil
  | b :: bs =>
    rw [blocksIds, blocksMentions, mentionIds_append]
    exact (b.ids_sublist _).append (blocksIds_sublist bs gs)

theorem Block.ids_sublist (b : Block) (gs : List (List String)) :
    b.ids.Sublist (mentionIds (b.mentions gs)) := by
  match b with
  | .result e => exact e.ids_sublist gs
  | .bind p value _ rest =>
    rw [Block.ids, Block.mentions, mentionIds_append, mentionIds_append]
    exact p.leafIds_sublist.append ((value.ids_sublist _).append (rest.ids_sublist gs))

end

mutual

theorem declsIds_sublist (ds : List Decl) (gs : List (List String)) :
    (declsIds ds).Sublist (mentionIds (declsMentions gs ds)) := by
  match ds with
  | [] => exact .slnil
  | d :: ds =>
    rw [declsIds, declsMentions, mentionIds_append]
    exact (d.ids_sublist gs).append (declsIds_sublist ds gs)

theorem Decl.ids_sublist (d : Decl) (gs : List (List String)) :
    d.ids.Sublist (mentionIds (d.mentions gs)) := by
  match d with
  | .space ns => exact (ns.ids_sublist gs).cons _
  | .type _ _ _ (some ns) => exact (ns.ids_sublist gs).cons _
  | .type _ _ _ none => exact List.nil_sublist _
  | .binding p value _ =>
    rw [Decl.ids, Decl.mentions, mentionIds_append]
    exact p.leafIds_sublist.append (value.ids_sublist _)

theorem NamespaceDecl.ids_sublist (ns : NamespaceDecl) (gs : List (List String)) :
    ns.ids.Sublist (mentionIds (ns.mentions gs)) := by
  match ns with
  | .mk _ _ decls => exact declsIds_sublist decls _

end

theorem Program.ids_sublist (p : Program) : p.ids.Sublist (mentionIds p.mentions) := by
  rw [Program.ids, Program.mentions, mentionIds_append, mentionIds_append]
  refine List.Sublist.trans ?_ (List.sublist_append_right _ _)
  refine (p.root.ids_sublist []).append ?_
  cases p.trailing with
  | none => exact List.nil_sublist _
  | some c => exact (c.toExpr.ids_sublist _).cons _

end

/-- Declare names one after the other. -/
def declareLeaves : List Leaf → Group → Linking → Group × Linking
  | [], g, s => (g, s)
  | x :: xs, g, s =>
    let (g, s) := declareLeaf x.id x.name x.line g s
    declareLeaves xs g s

theorem declareLeaves_append (xs ys : List Leaf) (g : Group) (s : Linking) :
    declareLeaves (xs ++ ys) g s =
      declareLeaves ys (declareLeaves xs g s).1 (declareLeaves xs g s).2 := by
  induction xs generalizing g s with
  | nil => rfl
  | cons x xs ih => exact ih _ _

mutual

/-- A pattern declares its names in the order of the text. -/
theorem declarePattern_eq (p : Pattern) (g : Group) (s : Linking) :
    declarePattern p g s = declareLeaves p.leaves g s := by
  match p with
  | .wildcard => rfl
  | .name id name line => rfl
  | .literal _ _ => rfl
  | .list items => exact declarePatterns_eq items g s
  | .type _ params => exact declarePatterns_eq params g s

theorem declarePatterns_eq (ps : List Pattern) (g : Group) (s : Linking) :
    declarePatterns ps g s = declareLeaves (patternsLeaves ps) g s := by
  match ps with
  | [] => rfl
  | p :: ps =>
    rw [patternsLeaves, declareLeaves_append, ← declarePattern_eq p, ← declarePatterns_eq ps]
    rfl

end

end MatchLang
