import MatchLang.Proofs.Lowering.Emission
import MatchLang.Proofs.Machine.Inversion

/-! The imports of a module's code are those that its text begins with. -/

namespace MatchLang

/-- The instructions that an emitter appends have a property. -/
def Emitter.Emits {α : Type} (P : Op → Prop) (x : Emitter α) : Prop :=
  ∀ s a t, x.run s = .ok (a, t) →
    ∀ i ∈ t.unit.instrs.toList, i ∈ s.unit.instrs.toList ∨ P i.op

/-- An instruction that is not an import. -/
def Op.Local (op : Op) : Prop :=
  op.import? = none

namespace Emitter

variable {α β : Type} {P Q : Op → Prop} {x : Emitter α} {f : α → Emitter β}

theorem Emits.pure {a : α} : Emits P (pure a : Emitter α) := by
  intro s b t h i hi
  obtain ⟨-, rfl⟩ := pure_eq_ok h
  exact .inl hi

theorem Emits.bind (hx : Emits P x) (hf : ∀ a, Emits P (f a)) : Emits P (x >>= f) := by
  intro s b t h i hi
  obtain ⟨a, r, h₁, h₂⟩ := bind_eq_ok h
  rcases hf a r b t h₂ i hi with hi | hp
  · exact hx s a r h₁ i hi
  · exact .inr hp

theorem Emits.mono (hx : Emits P x) (hpq : ∀ op, P op → Q op) : Emits Q x :=
  fun s a t h i hi => (hx s a t h i hi).imp id (hpq i.op)

theorem Emits.ite {p : Prop} [Decidable p] {y : Emitter α} (hx : Emits P x) (hy : Emits P y) :
    Emits P (if p then x else y) := by
  split
  · exact hx
  · exact hy

theorem Emits.lift {r : Except CompileError α} : Emits P (liftM r : Emitter α) := by
  intro s a t h i hi
  obtain ⟨-, rfl⟩ := lift_eq_ok h
  exact .inl hi

theorem Emits.reject {failure : CompileFailure} {line : Nat} :
    Emits P (reject failure line : Emitter α) :=
  fun _ _ _ h => absurd h reject_ne_ok

end Emitter

section

open Emitter

variable {P : Op → Prop} {links : Links}

theorem emit_emits {line : Nat} {op : Op} (h : P op) : Emits P (emit line op) := by
  intro s a t hrun i hi
  cases hrun
  rw [Builder.instrs_emit, List.mem_append, List.mem_singleton] at hi
  rcases hi with hi | rfl
  · exact .inl hi
  · exact .inr h

theorem freshLabel_emits {line : Nat} : Emits P (freshLabel line) := by
  intro s a t hrun i hi
  cases hrun
  exact .inl hi

theorem attach_emits {label line : Nat} : Emits P (attach label line) := by
  intro s a t hrun i hi
  obtain ⟨_, r, hget, h⟩ := bind_eq_ok hrun
  cases hget
  obtain ⟨unit, r', ha, h⟩ := bind_eq_ok h
  cases h
  obtain ⟨ha, rfl⟩ := lift_eq_ok ha
  rw [← Builder.instrs_attach ha]
  exact .inl hi

theorem freshSlot_emits {name : String} {line : Nat} : Emits P (freshSlot name line) := by
  intro s a t hrun i hi
  cases hrun
  exact .inl hi

theorem inOwnUnit_emits {build : Emitter Unit} : Emits P (inOwnUnit build) := by
  intro s a t hrun i hi
  obtain ⟨r, _, _, rfl⟩ := inOwnUnit_eq_ok hrun
  exact .inl hi

theorem storeName_emits {publishAt : Option (List String)} {id : Nat} {name : String} {line : Nat} :
    Emits Op.Local (storeName links publishAt id name line) := by
  unfold storeName
  cases links.get? id with
  | none => exact .reject
  | some slot =>
    cases publishAt with
    | none => exact emit_emits rfl
    | some path =>
      exact .bind (emit_emits rfl) fun _ => .bind (emit_emits rfl) fun _ => emit_emits rfl

mutual

theorem storePattern_emits {publishAt : Option (List String)} (p : Pattern) (line : Nat) :
    Emits Op.Local (storePattern links publishAt p line) := by
  match p with
  | .wildcard | .literal _ _ => exact emit_emits rfl
  | .name id n nameLine => exact storeName_emits
  | .list items => exact storeItems_emits items line
  | .type n params => exact .bind (emit_emits rfl) fun _ => storePatterns_emits params n.line

theorem storeItems_emits {publishAt : Option (List String)} (ps : List Pattern) (line : Nat) :
    Emits Op.Local (storeItems links publishAt ps line) := by
  match ps with
  | [] => exact emit_emits rfl
  | p :: ps =>
    exact .bind (emit_emits rfl) fun _ => .bind (storePattern_emits p line) fun _ =>
      storeItems_emits ps line

theorem storePatterns_emits {publishAt : Option (List String)} (ps : List Pattern) (line : Nat) :
    Emits Op.Local (storePatterns links publishAt ps line) := by
  match ps with
  | [] => exact .pure
  | p :: ps =>
    exact .bind (storePattern_emits p line) fun _ => storePatterns_emits ps line

end

theorem emitCons_emits {line : Nat} : Emits Op.Local (emitCons line) :=
  .bind (emit_emits rfl) fun _ => emit_emits rfl

theorem armLabels_emits (arms : List Arm) : Emits P (armLabels arms) := by
  induction arms with
  | nil => exact .pure
  | cons a as ih => exact .bind freshLabel_emits fun _ => .bind ih fun _ => .pure

theorem emitTests_emits (arms : List Arm) (labels : List Nat) :
    Emits Op.Local (emitTests arms labels) := by
  induction arms generalizing labels with
  | nil => exact .pure
  | cons a as ih =>
    cases labels with
    | nil => exact .pure
    | cons label labels =>
      exact .bind (emit_emits rfl) fun _ => .bind (emit_emits rfl) fun _ => ih labels

theorem emitItems_emits {line : Nat} (slots : List Slot) :
    Emits Op.Local (emitItems line slots) := by
  induction slots with
  | nil => exact .pure
  | cons slot slots ih =>
    exact .bind ih fun _ => .bind (emit_emits rfl) fun _ => emitCons_emits

theorem lowerLiteral_emits {value : Literal} {line : Nat} :
    Emits Op.Local (lowerLiteral value line) := by
  cases value <;> exact emit_emits rfl

theorem lowerName_emits {n : QName} : Emits Op.Local (lowerName links n) := by
  unfold lowerName QName.op
  cases links.get? n.id <;> exact emit_emits rfl

mutual

theorem lowerExpr_emits (e : Expr) (allowTail : Bool) :
    Emits Op.Local (lowerExpr links e allowTail) := by
  match e with
  | .call callee args line =>
    unfold lowerExpr
    split
    · split
      · rename_i scrutinee cases caseLine
        exact .bind .lift fun arms => .bind (lowerExpr_emits scrutinee false) fun _ =>
          .bind freshLabel_emits fun done => .bind (armLabels_emits arms) fun labels =>
          .bind (emitTests_emits arms labels) fun _ => .bind (emit_emits rfl) fun _ =>
          .bind (lowerArms_emits cases labels done allowTail) fun _ =>
          .bind attach_emits fun _ => emit_emits rfl
      · exact .reject
      · exact .reject
    · refine .bind (lowerArgs_emits args) fun _ => ?_
      split
      · exact .ite (emit_emits rfl) .reject
      · exact .bind (lowerExpr_emits callee false) fun _ => emit_emits rfl
  | .function params body line =>
    unfold lowerExpr
    exact .bind inOwnUnit_emits fun _ => emit_emits rfl
  | .list elements line =>
    unfold lowerExpr
    exact .ite (.bind (emit_emits rfl) fun _ => lowerPure_emits elements line)
      (.bind (lowerItems_emits elements line) fun slots => .bind (emit_emits rfl) fun _ =>
        emitItems_emits slots)
  | .literal value line =>
    unfold lowerExpr
    exact lowerLiteral_emits
  | .name n =>
    unfold lowerExpr
    exact lowerName_emits
  | .self line =>
    unfold lowerExpr
    exact .reject

theorem lowerArgs_emits (es : List Expr) : Emits Op.Local (lowerArgs links es) := by
  match es with
  | [] => exact .pure
  | e :: es => exact .bind (lowerArgs_emits es) fun _ => lowerExpr_emits e false

theorem lowerPure_emits (bs : List Block) (line : Nat) :
    Emits Op.Local (lowerPure links bs line) := by
  match bs with
  | [] => exact .pure
  | b :: bs =>
    exact .bind (lowerPure_emits bs line) fun _ => .bind (lowerBlock_emits b false) fun _ =>
      emitCons_emits

theorem lowerItems_emits (bs : List Block) (line : Nat) :
    Emits Op.Local (lowerItems links bs line) := by
  match bs with
  | [] => exact .pure
  | b :: bs =>
    exact .bind (lowerBlock_emits b false) fun _ => .bind freshSlot_emits fun _ =>
      .bind (emit_emits rfl) fun _ => .bind (lowerItems_emits bs line) fun _ => .pure

theorem lowerArms_emits (cases : List Block) (labels : List Nat) (done : Nat) (allowTail : Bool) :
    Emits Op.Local (lowerArms links cases labels done allowTail) := by
  unfold lowerArms
  split
  · rename_i pattern body line cases label labels
    exact .bind attach_emits fun _ => .bind (storePattern_emits pattern line) fun _ =>
      .bind (lowerBlock_emits body allowTail) fun _ => .bind (emit_emits rfl) fun _ =>
      lowerArms_emits cases labels done allowTail
  · exact .pure

theorem lowerBlock_emits (b : Block) (allowTail : Bool) :
    Emits Op.Local (lowerBlock links b allowTail) := by
  match b with
  | .result e => exact lowerExpr_emits e allowTail
  | .bind p value _ rest =>
    exact .bind (lowerBlock_emits value false) fun _ =>
      .bind (storePattern_emits p value.value.line) fun _ => lowerBlock_emits rest allowTail

end

theorem lowerType_emits {path : List String} {name : QName} {isPublic : Bool}
    {cases : List CaseDecl} : Emits Op.Local (lowerType path name isPublic cases) := by
  unfold lowerType
  cases name.parts.getLast? with
  | none => exact .pure
  | some last =>
    simp only
    split
    · exact emit_emits rfl
    · exact .bind (emit_emits rfl) fun _ => emit_emits rfl

mutual

theorem lowerDecls_emits {publishRoot : Bool} {path : List String} (ds : List Decl) :
    Emits Op.Local (lowerDecls links publishRoot path ds) := by
  match ds with
  | [] => exact .pure
  | d :: ds => exact .bind (lowerDecl_emits d) fun _ => lowerDecls_emits ds

theorem lowerDecl_emits {publishRoot : Bool} {path : List String} (d : Decl) :
    Emits Op.Local (lowerDecl links publishRoot path d) := by
  match d with
  | .space ns => exact lowerNamespace_emits ns
  | .type name isPublic cases none => exact .bind lowerType_emits fun _ => .pure
  | .type name isPublic cases (some ns) =>
    exact .bind lowerType_emits fun _ => .ite .pure (lowerNamespace_emits ns)
  | .binding p value isPublic =>
    exact .bind (lowerBlock_emits value false) fun _ => storePattern_emits p value.value.line

theorem lowerNamespace_emits {publishRoot : Bool} {path : List String} (ns : NamespaceDecl) :
    Emits Op.Local (lowerNamespace links publishRoot path ns) := by
  match ns with
  | .mk name isPublic decls => exact .bind (emit_emits rfl) fun _ => lowerDecls_emits decls

end

/-- The files that a program imports, in order. -/
def Program.files (p : Program) : List String :=
  p.imports.map (·.file)

/-- An instruction that imports none but some files. -/
def Op.ImportsFrom (files : List String) (op : Op) : Prop :=
  ∀ file delivery, op.import? = some (file, delivery) → file ∈ files

theorem Op.Local.importsFrom {op : Op} (h : op.Local) (files : List String) :
    op.ImportsFrom files := by
  intro file delivery hi
  rw [Op.Local] at h
  rw [h] at hi
  cases hi

theorem lowerImport_emits {i : Import} {files : List String} (hi : i.file ∈ files) :
    Emits (Op.ImportsFrom files) (lowerImport i) := by
  have hentries : ∀ names : List QName, Emits (Op.ImportsFrom files)
      (names.forM fun n => emit i.line (.importEntry i.file n.parts)) := by
    intro names
    induction names with
    | nil => exact .pure
    | cons n names ih =>
      refine .bind (emit_emits ?_) fun _ => ih
      rintro file delivery ⟨⟩
      exact hi
  refine .ite (emit_emits ?_) (hentries i.names)
  rintro file delivery ⟨⟩
  exact hi

theorem lowerProgram_emits {publishRoot : Bool} {p : Program} :
    Emits (Op.ImportsFrom p.files) (lowerProgram links publishRoot p) := by
  have himports : ∀ is : List Import, (∀ i ∈ is, i.file ∈ p.files) →
      Emits (Op.ImportsFrom p.files) (is.forM lowerImport) := by
    intro is his
    induction is with
    | nil => exact .pure
    | cons i is ih =>
      obtain ⟨hi, his⟩ := List.forall_mem_cons.mp his
      exact .bind (lowerImport_emits hi) fun _ => ih his
  refine .bind (himports p.imports fun i hi => List.mem_map_of_mem hi) fun _ =>
    .bind ((lowerDecls_emits _).mono fun _ h => h.importsFrom _) fun _ => ?_
  cases p.trailing with
  | none => exact .pure
  | some c => exact (lowerExpr_emits _ _).mono fun _ h => h.importsFrom _

/-- The code of a program imports the files that its text names, and no others. -/
theorem compile_importsFrom {p : Program} {publishRoot : Bool} {n next : Nat} {c : Code}
    (h : p.compile publishRoot n = .ok (c, next)) :
    ∀ i ∈ c.instrs, i.op.ImportsFrom p.files := by
  intro i hi
  unfold Program.compile at h
  obtain ⟨⟨_, t⟩, hl, h⟩ := Except.bind_eq_ok h
  obtain ⟨unit, hf, h⟩ := Except.bind_eq_ok h
  cases h
  obtain ⟨-, hu, -⟩ := finish_eq_ok hf
  rw [hu] at hi
  rcases lowerProgram_emits _ _ _ hl i hi with hempty | hp
  · cases hempty
  · exact hp

end

end MatchLang
