import MatchLang.Builtins
import MatchLang.Machine.Step
import MatchLang.Proofs.Value.Recode

/-! What is done with trees of names does not depend on the code of the functions in them, nor on the
scopes they were made in. -/

namespace MatchLang

namespace Table

variable {α β : Type} (g : α → β)

/-- A table with all entries changed. -/
def mapEntries (t : List (String × α)) : List (String × β) :=
  t.map fun e => (e.1, g e.2)

theorem get?_mapEntries (t : List (String × α)) (name : String) :
    get? (mapEntries g t) name = (get? t name).map g := by
  induction t with
  | nil => rfl
  | cons e t ih =>
    obtain ⟨n, a⟩ := e
    show get? ((n, g a) :: mapEntries g t) name = _
    rw [get?_cons, get?_cons, ih]
    split <;> rfl

theorem set_mapEntries (t : List (String × α)) (name : String) (a : α) :
    set (mapEntries g t) name (g a) = mapEntries g (set t name a) := by
  induction t with
  | nil => rfl
  | cons e t ih =>
    obtain ⟨n, b⟩ := e
    show set ((n, g b) :: mapEntries g t) name (g a) = _
    rw [set, set, ih]
    split <;> rfl

theorem overlay_mapEntries (upper lower : List (String × α)) :
    overlay (mapEntries g upper) (mapEntries g lower) = mapEntries g (overlay upper lower) := by
  induction upper with
  | nil => rfl
  | cons e upper ih =>
    have hcons : overlay (mapEntries g (e :: upper)) (mapEntries g lower) =
        set (overlay (mapEntries g upper) (mapEntries g lower)) e.1 (g e.2) := rfl
    rw [hcons, ih, set_mapEntries]
    rfl

end Table

namespace Namespace

section

variable {f : Code → Code} {u : Nat → Nat}

theorem recode_eq (ns : Namespace) :
    ns.recode f u = { ns with
      values := Table.mapEntries (·.recode f u) ns.values
      children := Table.mapEntries (·.recode f u) ns.children } := by
  obtain ⟨isPublic, values, types, children⟩ := ns
  rw [recode, childrenRecode_eq]
  rfl

@[simp] theorem isPublic_recode (ns : Namespace) : (ns.recode f u).isPublic = ns.isPublic := by
  rw [recode_eq]

@[simp] theorem empty_recode (isPublic : Bool) :
    (empty isPublic).recode f u = empty isPublic := by
  rw [recode_eq]
  rfl

@[simp] theorem value?_recode (ns : Namespace) (name : String) :
    (ns.recode f u).value? name = (ns.value? name).map (·.recode f u) := by
  rw [recode_eq]
  exact Table.get?_mapEntries _ _ _

@[simp] theorem type?_recode (ns : Namespace) (name : String) :
    (ns.recode f u).type? name = ns.type? name := by
  rw [recode_eq]
  rfl

@[simp] theorem child?_recode (ns : Namespace) (name : String) :
    (ns.recode f u).child? name = (ns.child? name).map (·.recode f u) := by
  rw [recode_eq]
  exact Table.get?_mapEntries _ _ _

@[simp] theorem setValue_recode (ns : Namespace) (name : String) (v : Value) :
    (ns.recode f u).setValue name (v.recode f u) = (ns.setValue name v).recode f u := by
  rw [recode_eq, recode_eq]
  simp only [setValue, Table.set_mapEntries]

@[simp] theorem setType_recode (ns : Namespace) (name : String) (t : DataType) :
    (ns.recode f u).setType name t = (ns.setType name t).recode f u := by
  rw [recode_eq, recode_eq]
  rfl

@[simp] theorem setChild_recode (ns : Namespace) (name : String) (c : Namespace) :
    (ns.recode f u).setChild name (c.recode f u) = (ns.setChild name c).recode f u := by
  rw [recode_eq, recode_eq (ns.setChild name c)]
  simp only [setChild, Table.set_mapEntries]

@[simp] theorem childOr_recode (ns : Namespace) (name : String) (isPublic : Bool) :
    (ns.recode f u).childOr name isPublic = (ns.childOr name isPublic).recode f u := by
  unfold childOr
  rw [child?_recode]
  cases ns.child? name with
  | none => exact (empty_recode isPublic).symm
  | some c => rfl

theorem at?_recode (ns : Namespace) (path : List String) :
    (ns.recode f u).at? path = (ns.at? path).map (·.recode f u) := by
  induction path generalizing ns with
  | nil => rfl
  | cons name path ih =>
    rw [at?, at?, child?_recode]
    cases ns.child? name with
    | none => rfl
    | some c => exact ih c

theorem findValue_recode (ns : Namespace) (path : List String) :
    (ns.recode f u).findValue path = (ns.findValue path).map (·.recode f u) := by
  have hat : ∀ path name, (ns.recode f u).valueAt? path name =
      (ns.valueAt? path name).map (·.recode f u) := by
    intro path name
    unfold valueAt?
    rw [at?_recode]
    cases ns.at? path with
    | none => rfl
    | some c => exact value?_recode c name
  unfold findValue
  cases path.getLast? with
  | none => rfl
  | some last =>
    rw [Option.bind_some, Option.bind_some, hat]
    cases ns.valueAt? path.dropLast last <;> rfl

@[simp] theorem findType_recode (ns : Namespace) : (ns.recode f u).findType = ns.findType := by
  have hat : ∀ path name, (ns.recode f u).typeAt? path name = ns.typeAt? path name := by
    intro path name
    unfold typeAt?
    rw [at?_recode]
    cases ns.at? path with
    | none => rfl
    | some c => exact type?_recode c name
  funext path
  unfold findType
  cases path.getLast? with
  | none => rfl
  | some last => rw [Option.bind_some, Option.bind_some, hat]

theorem find_recode (ns : Namespace) (path : List String) :
    (ns.recode f u).find path = (ns.find path).map (·.recode f u) := by
  have hfrom : ∀ (walked : List String) (ns : Namespace),
      (ns.recode f u).findFrom walked path = (ns.findFrom walked path).map (·.recode f u) := by
    induction path with
    | nil => exact fun _ _ => rfl
    | cons name path ih =>
      intro walked ns
      rw [findFrom, findFrom, child?_recode]
      cases ns.child? name with
      | none => rfl
      | some c => exact ih (walked ++ [name]) c
  exact hfrom [] ns

theorem updateAt_recode {change change' : Namespace → Namespace}
    (h : ∀ ns, change' (ns.recode f u) = (change ns).recode f u) (path : List String)
    (ns : Namespace) :
    updateAt change' path (ns.recode f u) = (updateAt change path ns).recode f u := by
  induction path generalizing ns with
  | nil => exact h ns
  | cons name path ih =>
    rw [updateAt, updateAt, child?_recode]
    cases ns.child? name with
    | none => rfl
    | some c =>
      simp only [Option.map_some, ih]
      exact setChild_recode ns name _

theorem make_recode (ns : Namespace) (path : List String) (isPublic : Bool) :
    (ns.recode f u).make path isPublic = (ns.make path isPublic).map (·.recode f u) := by
  have hmake : ∀ ns : Namespace, make? isPublic path (ns.recode f u) =
      (make? isPublic path ns).map (·.recode f u) := by
    induction path with
    | nil => exact fun _ => rfl
    | cons name path ih =>
      intro ns
      rw [make?, make?, isPublic_recode, childOr_recode, ih]
      split
      · rfl
      · cases make? isPublic path (ns.childOr name isPublic) with
        | none => rfl
        | some c => exact congrArg some (setChild_recode ns name c)
  unfold make
  rw [hmake]
  cases make? isPublic path ns <;> rfl

theorem addFamily_recode (ns : Namespace) (name : String) (cases : List Case) :
    (ns.recode f u).addFamily name cases = (ns.addFamily name cases).recode f u := by
  have hcase : ∀ (ns : Namespace) (c : Case),
      (ns.recode f u).addCase c = (ns.addCase c).recode f u := by
    intro ns c
    have hvalue : c.value.recode f u = c.value := by
      unfold Case.value
      split <;> rfl
    have hset := setValue_recode (f := f) (u := u) (ns.setType c.name (.case c)) c.name c.value
    rw [hvalue] at hset
    unfold addCase
    rw [setType_recode, hset]
  have hall : ∀ ns : Namespace, cases.foldl addCase (ns.recode f u) =
      (cases.foldl addCase ns).recode f u := by
    induction cases with
    | nil => exact fun _ => rfl
    | cons c cases ih =>
      intro ns
      rw [List.foldl_cons, List.foldl_cons, hcase, ih]
  unfold addFamily
  rw [setType_recode, hall]

mutual

theorem overlay_recode (source target : Namespace) :
    (source.recode f u).overlay (target.recode f u) = (source.overlay target).recode f u := by
  match source with
  | .mk isPublic values types children =>
    have htarget : { target.recode f u with
        values := Table.overlay (Table.mapEntries (·.recode f u) values) (target.recode f u).values
        types := Table.overlay types (target.recode f u).types } =
        ({ target with
          values := Table.overlay values target.values
          types := Table.overlay types target.types } : Namespace).recode f u := by
      rw [recode_eq, recode_eq]
      simp only [Table.overlay_mapEntries]
    rw [recode, overlay, overlay]
    have hchildren := overlayChildren_recode children
      { target with
        values := Table.overlay values target.values
        types := Table.overlay types target.types }
    rw [← htarget] at hchildren
    exact hchildren

theorem overlayChildren_recode (children : List (String × Namespace)) (target : Namespace) :
    overlayChildren (childrenRecode f u children) (target.recode f u) =
      (overlayChildren children target).recode f u := by
  match children with
  | [] => rfl
  | (name, .mk true vs ts cs) :: rest =>
    have hchild := overlay_recode (.mk true vs ts cs) (target.childOr name target.isPublic)
    rw [recode] at hchild
    rw [childrenRecode, recode, overlayChildren, overlayChildren, isPublic_recode,
      childOr_recode, hchild, setChild_recode]
    exact overlayChildren_recode rest _
  | (name, .mk false vs ts cs) :: rest =>
    rw [childrenRecode, recode, overlayChildren, overlayChildren]
    exact overlayChildren_recode rest target

end

theorem importName_recode (source target : Namespace) (path : List String) (name : String) :
    (source.recode f u).importName (target.recode f u) path name =
      (source.importName target path name).map (·.recode f u) := by
  unfold importName
  rw [value?_recode, type?_recode, child?_recode]
  have hprivate : ((source.child? name).map (·.recode f u)).any (!·.isPublic) =
      (source.child? name).any (!·.isPublic) := by
    cases source.child? name with
    | none => rfl
    | some c => exact congrArg (!·) (isPublic_recode c)
  rw [hprivate]
  simp only [Option.isSome_map]
  split
  · rfl
  · split
    · rfl
    · cases source.value? name <;> cases source.type? name <;> cases source.child? name <;>
        simp only [Option.map_some, Option.map_none, setValue_recode, setType_recode,
          isPublic_recode, childOr_recode, overlay_recode, setChild_recode, Except.map]

theorem importEntry_recode (source target : Namespace) (path : List String) :
    (source.recode f u).importEntry (target.recode f u) path =
      ((source.importEntry target path).1.recode f u, (source.importEntry target path).2) := by
  have hfrom : ∀ (walked : List String) (source target : Namespace),
      (source.recode f u).importFrom walked (target.recode f u) path =
        ((source.importFrom walked target path).1.recode f u,
          (source.importFrom walked target path).2) := by
    induction path with
    | nil => exact fun _ _ _ => rfl
    | cons part path ih =>
      intro walked source target
      cases path with
      | nil =>
        rw [importFrom, importFrom, importName_recode]
        cases source.importName target (walked ++ [part]) part <;> rfl
      | cons next path =>
        rw [importFrom, importFrom, child?_recode]
        · cases source.child? part with
          | none => rfl
          | some inner =>
            simp only [Option.map_some, isPublic_recode, childOr_recode, ih]
            split
            · exact congrArg (·, _) (setChild_recode _ _ _)
            · rfl
        all_goals exact List.cons_ne_nil next path
  exact hfrom [] source target

theorem seed_recode (b : Builtins) (ns : Namespace) :
    b.seed (ns.recode f u) = (b.seed ns).recode f u := by
  have hnatives : ∀ (gs : List Native) (ns : Namespace),
      gs.foldl Builtins.addNative (ns.recode f u) = (gs.foldl Builtins.addNative ns).recode f u := by
    intro gs
    induction gs with
    | nil => exact fun _ => rfl
    | cons g gs ih =>
      intro ns
      have hset := setValue_recode (f := f) (u := u) ns g.name (.native g)
      have hadd : Builtins.addNative (ns.recode f u) g = (Builtins.addNative ns g).recode f u := hset
      rw [List.foldl_cons, List.foldl_cons, hadd, ih]
  unfold Builtins.seed
  simp only [setType_recode, addFamily_recode, hnatives]

end

end Namespace

/-! What is done with trees of names does not depend on the slots in the code of the functions in them. -/

namespace Namespace

section

variable {f : Slot → Slot}

mutual

/-- To change slots is to change the code. -/
theorem mapSlots_eq (ns : Namespace) : ns.mapSlots f = ns.recode (Code.mapSlots f) id := by
  match ns with
  | .mk isPublic values types children =>
    have hvalues : entriesMapSlots f values = entriesRecode (Code.mapSlots f) id values := by
      simp only [entriesMapSlots, entriesRecode, Value.mapSlots_eq]
    rw [mapSlots, recode, hvalues, childrenMapSlots_eq_recode children]

theorem childrenMapSlots_eq_recode (children : List (String × Namespace)) :
    childrenMapSlots f children = childrenRecode (Code.mapSlots f) id children := by
  match children with
  | [] => rfl
  | (name, ns) :: rest =>
    rw [childrenMapSlots, childrenRecode, mapSlots_eq ns, childrenMapSlots_eq_recode rest]

end

@[simp] theorem empty_mapSlots (isPublic : Bool) :
    (empty isPublic).mapSlots f = empty isPublic := by
  rw [mapSlots_eq, empty_recode]

@[simp] theorem setValue_mapSlots (ns : Namespace) (name : String) (v : Value) :
    (ns.mapSlots f).setValue name (v.mapSlots f) = (ns.setValue name v).mapSlots f := by
  simp only [mapSlots_eq, Value.mapSlots_eq]
  exact setValue_recode ns name v

theorem findValue_mapSlots (ns : Namespace) (path : List String) :
    (ns.mapSlots f).findValue path = (ns.findValue path).map (·.mapSlots f) := by
  simp only [mapSlots_eq, Value.mapSlots_eq]
  exact findValue_recode ns path

@[simp] theorem findType_mapSlots (ns : Namespace) : (ns.mapSlots f).findType = ns.findType := by
  rw [mapSlots_eq, findType_recode]

theorem find_mapSlots (ns : Namespace) (path : List String) :
    (ns.mapSlots f).find path = (ns.find path).map (·.mapSlots f) := by
  simp only [mapSlots_eq]
  exact find_recode ns path

theorem updateAt_mapSlots {change change' : Namespace → Namespace}
    (h : ∀ ns, change' (ns.mapSlots f) = (change ns).mapSlots f) (path : List String)
    (ns : Namespace) :
    updateAt change' path (ns.mapSlots f) = (updateAt change path ns).mapSlots f := by
  simp only [mapSlots_eq] at h ⊢
  exact updateAt_recode h path ns

theorem make_mapSlots (ns : Namespace) (path : List String) (isPublic : Bool) :
    (ns.mapSlots f).make path isPublic = (ns.make path isPublic).map (·.mapSlots f) := by
  simp only [mapSlots_eq]
  exact make_recode ns path isPublic

theorem addFamily_mapSlots (ns : Namespace) (name : String) (cases : List Case) :
    (ns.mapSlots f).addFamily name cases = (ns.addFamily name cases).mapSlots f := by
  rw [mapSlots_eq, mapSlots_eq, addFamily_recode]

theorem overlay_mapSlots (source target : Namespace) :
    (source.mapSlots f).overlay (target.mapSlots f) = (source.overlay target).mapSlots f := by
  simp only [mapSlots_eq]
  exact overlay_recode source target

theorem importEntry_mapSlots (source target : Namespace) (path : List String) :
    (source.mapSlots f).importEntry (target.mapSlots f) path =
      ((source.importEntry target path).1.mapSlots f, (source.importEntry target path).2) := by
  simp only [mapSlots_eq]
  exact importEntry_recode source target path

theorem seed_mapSlots (b : Builtins) (ns : Namespace) :
    b.seed (ns.mapSlots f) = (b.seed ns).mapSlots f := by
  rw [mapSlots_eq, mapSlots_eq, seed_recode]

end

end Namespace

end MatchLang
