import MatchLang.Proofs.Namespace.Making
import MatchLang.Proofs.Namespace.Selection
import MatchLang.Proofs.Pattern.Publishing

/-! What is written into a tree of names, one thing after another. A name has the value that was written last
under it at its path; imports, data types and bindings are all of this kind. -/

namespace MatchLang

/-- What an import takes of the tree of a module, or a value under a name at a path. -/
inductive Writing where
  | taken (delivery : Delivery) (source : Namespace)
  | value (path : List String) (name : String) (v : Value)

/-- The value that a writing puts under a name at a path. Of the tree of a module it is what is reached
through public namespaces only. -/
def Writing.at? : Writing → (path : List String) → (name : String) → Option Value
  | .taken .whole source, q, n => source.publicValueAt? q n
  | .taken (.entry named) source, q, n =>
    if named <+: q ++ [n] then source.publicValueAt? q n else none
  | .value path name v, q, n => if q = path ∧ n = name then some v else none

/-- The value that is written last under a name at a path. -/
def lastWritten : List Writing → (path : List String) → (name : String) → Option Value
  | [], _, _ => none
  | w :: ws, q, n => (lastWritten ws q n).or (w.at? q n)

/-- Every name has the value that is written last under it, or else the one it had before. -/
def Namespace.Written (ns : Namespace) (ws : List Writing) (after : Namespace) : Prop :=
  ∀ q n, after.valueAt? q n = (lastWritten ws q n).or (ns.valueAt? q n)

/-- The cases of a data type, each written under its name. -/
def caseWritings (path : List String) (cases : List Case) : List Writing :=
  cases.map fun c => .value path c.name c.value

/-- The names of a pattern, each written with its part of the value. -/
def pieceWritings (path : List String) (ps : List Piece) : List Writing :=
  ps.map fun p => .value path p.name p.value

theorem lastWritten_append {ws ws' : List Writing} {q : List String} {n : String} :
    lastWritten (ws ++ ws') q n = (lastWritten ws' q n).or (lastWritten ws q n) := by
  induction ws with
  | nil => rw [List.nil_append, lastWritten, Option.or_none]
  | cons w ws ih => rw [List.cons_append, lastWritten, ih, lastWritten, Option.or_assoc]

namespace Namespace

section

variable {ns ns' after : Namespace} {ws ws' : List Writing} {w : Writing} {path q : List String}
  {n name : String} {change : Namespace → Namespace}

theorem Written.refl (ns : Namespace) : ns.Written [] ns :=
  fun _ _ => rfl

theorem Written.append (h : ns.Written ws ns') (h' : ns'.Written ws' after) :
    ns.Written (ws ++ ws') after := by
  intro q n
  rw [h' q n, h q n, lastWritten_append, Option.or_assoc]

theorem Written.single (h : ∀ q n, after.valueAt? q n = (w.at? q n).or (ns.valueAt? q n)) :
    ns.Written [w] after :=
  h

/-- A change of the values at a path is seen there, and nowhere else. -/
theorem valueAt?_updateAt (hc : ∀ ns n, (change ns).child? n = ns.child? n)
    (hp : (ns.at? path).isSome) :
    (ns.updateAt change path).valueAt? q n =
      if q = path then (ns.at? path).bind fun c => (change c).value? n else ns.valueAt? q n := by
  induction path generalizing ns q with
  | nil =>
    cases q with
    | nil => rfl
    | cons p q =>
      rw [if_neg (List.cons_ne_nil p q), valueAt?, valueAt?, updateAt, at?_cons, at?_cons, hc]
  | cons part path ih =>
    obtain ⟨d, hd, hpath⟩ : ∃ d, ns.child? part = some d ∧ (d.at? path).isSome := by
      rw [at?_cons] at hp
      obtain ⟨e, he⟩ := Option.isSome_iff_exists.mp hp
      obtain ⟨d, hd, he⟩ := Option.bind_eq_some_iff.mp he
      exact ⟨d, hd, he ▸ rfl⟩
    have hu : ns.updateAt change (part :: path) = ns.setChild part (d.updateAt change path) := by
      rw [updateAt, hd]
    rw [hu]
    cases q with
    | nil => rfl
    | cons p q =>
      rw [valueAt?, at?_setChild]
      by_cases hpart : p = part
      · subst hpart
        have hi := @ih d q hpath
        rw [valueAt?] at hi
        rw [if_pos rfl, hi, at?_cons, hd, Option.bind_some, valueAt?, valueAt?, at?_cons, hd,
          Option.bind_some]
        simp only [List.cons.injEq, true_and]
      · rw [if_neg hpart, if_neg fun h => hpart (List.cons.inj h).1, valueAt?]

theorem addFamily_child? {cases : List Case} : (ns.addFamily name cases).child? n = ns.child? n := by
  have hf : ∀ (cs : List Case) (ns : Namespace), (cs.foldl addCase ns).child? n = ns.child? n := by
    intro cs
    induction cs with
    | nil => exact fun _ => rfl
    | cons c cs ih => exact fun ns => ih (ns.addCase c)
  exact hf cases _

/-- Of cases with one name the last one has it. -/
theorem addFamily_value? {cases : List Case} : (ns.addFamily name cases).value? n =
    (lastWritten (caseWritings path cases) path n).or (ns.value? n) := by
  have hf : ∀ (cs : List Case) (ns : Namespace), (cs.foldl addCase ns).value? n =
      (lastWritten (caseWritings path cs) path n).or (ns.value? n) := by
    intro cs
    induction cs with
    | nil => exact fun _ => rfl
    | cons c cs ih =>
      intro ns
      have hc : (ns.addCase c).value? n =
          ((Writing.value path c.name c.value).at? path n).or (ns.value? n) := by
        have hs : (ns.addCase c).value? n = if n = c.name then some c.value else ns.value? n :=
          Table.get?_set _ _ _ _
        rw [hs, Writing.at?]
        by_cases hn : n = c.name <;> simp [hn]
      rw [List.foldl_cons, ih, hc, ← Option.or_assoc]
      rfl
  exact hf cases _

theorem lastWritten_elsewhere {l : List α} {name : α → String} {v : α → Value} (hq : q ≠ path) :
    lastWritten (l.map fun a => .value path (name a) (v a)) q n = none := by
  induction l with
  | nil => rfl
  | cons a l ih => rw [List.map_cons, lastWritten, ih, Writing.at?, if_neg fun h => hq h.1]; rfl

/-- A data type writes its cases at its path. -/
theorem written_addFamily {cases : List Case} (hp : (ns.at? path).isSome) :
    ns.Written (caseWritings path cases) (ns.updateAt (·.addFamily name cases) path) := by
  intro q n
  rw [valueAt?_updateAt (fun _ _ => addFamily_child?) hp]
  by_cases hq : q = path
  · obtain ⟨c, hc⟩ := Option.isSome_iff_exists.mp hp
    subst hq
    rw [if_pos rfl, valueAt?, hc, Option.bind_some, Option.bind_some, addFamily_value?]
  · rw [if_neg hq, caseWritings, lastWritten_elsewhere hq, Option.none_or]

/-- A published pattern writes its names at its path. -/
theorem Adds.written {ps : List Piece} (h : ns.Adds path ps after) :
    ns.Written (pieceWritings path ps) after := by
  have hlast : ∀ n, lastWritten (pieceWritings path ps) path n =
      (ps.reverse.find? (·.name = n)).map Piece.value := by
    intro n
    clear h
    induction ps with
    | nil => rfl
    | cons p ps ih =>
      have hp : (Writing.value path p.name p.value).at? path n =
          ([p].find? (·.name = n)).map Piece.value := by
        rw [Writing.at?]
        by_cases hn : n = p.name
        · simp [hn]
        · simp [hn, Ne.symm hn]
      rw [List.reverse_cons, List.find?_append, Option.map_or, ← ih, ← hp]
      rfl
  intro q n
  by_cases hq : q = path
  · rw [hq, h.there, hlast]
  · rw [h.elsewhere q n hq, pieceWritings, lastWritten_elsewhere hq, Option.none_or]

/-- Namespaces that are made have no values. -/
theorem written_make {isPublic : Bool} (h : ns.make path isPublic = .ok after) : ns.Written [] after := by
  have hm : ns.makeAlong path isPublic = (after, none) := by
    rw [makeAlong_eq, h]
  by_cases hr : ns.Refuses path isPublic
  · cases hm.symm.trans (makeWithin_refused hr)
  · obtain ⟨made, he, hmade⟩ : ∃ made, ns.makeAlong path isPublic = (made, none) ∧
      ns.Makes path isPublic made := makeWithin_makes hr
    cases hm.symm.trans he
    exact hmade.value

/-- An import writes what it takes. -/
theorem written_merge {d : Delivery} {source : Namespace} (hs : source.Tidy)
    (h : d.merge source ns = (after, none)) : ns.Written [.taken d source] after := by
  refine .single fun q n => ?_
  cases d with
  | whole =>
    cases h
    exact (Receives.overlay hs ns).value q n trivial
  | entry named =>
    cases named using List.reverseRecOn with
    | nil => cases h
    | append_singleton front last =>
      obtain ⟨htree, hfault⟩ : (source.importEntry ns (front ++ [last])).1 = _ ∧
        ((source.importEntry ns (front ++ [last])).2 = none ↔ _) := importFrom_concat
      have he : source.importEntry ns (front ++ [last]) = (after, none) := h
      rw [he] at htree hfault
      have ho : source.Offers front last := hfault.mp rfl
      have hr := @Receives.entryPart source front last (fun _ => hs) ns
      rw [← htree] at hr
      rw [Writing.at?]
      split
      · rename_i ht
        exact hr.value q n ⟨ho, ht⟩
      · rename_i ht
        exact hr.otherValue q n fun h => ht h.2

end

end Namespace

end MatchLang
