import MatchLang.Proofs.Links.Bounds
import MatchLang.Proofs.Lowering.Imports

/-! The slots of a program's code are new. Those of its names are given out while it is linked and those of list
items while it is lowered, so all of them, also in the functions that the code makes, have numbers from the next
free slot before up to the one after. -/

namespace MatchLang

section

variable (P : Slot → Prop)

mutual

/-- The slots that an instruction reads or writes have a property, also in a function that it makes. -/
def Op.EverySlot : Op → Prop
  | .loadLocal slot => P slot
  | .saveLocal slot => P slot
  | .loadFunction code _ => code.EverySlot
  | _ => True

def Instr.EverySlot : Instr → Prop
  | .mk _ op => op.EverySlot

def Code.EverySlot : Code → Prop
  | .mk instrs _ => everySlot instrs

def everySlot : List Instr → Prop
  | [] => True
  | i :: is => i.EverySlot ∧ everySlot is

end

end

section

variable {P Q : Slot → Prop}

theorem everySlot_iff {is : List Instr} : everySlot P is ↔ ∀ i ∈ is, i.EverySlot P := by
  induction is with
  | nil => simp [everySlot]
  | cons i is ih => simp [everySlot, ih]

theorem Code.everySlot_iff {c : Code} : c.EverySlot P ↔ ∀ i ∈ c.instrs, i.EverySlot P := by
  obtain ⟨is, targets⟩ := c
  exact MatchLang.everySlot_iff

mutual

theorem Op.EverySlot.mono (h : ∀ slot, P slot → Q slot) : (op : Op) → op.EverySlot P → op.EverySlot Q
  | .loadLocal slot, hp | .saveLocal slot, hp => h slot hp
  | .loadFunction code _, hp => Code.EverySlot.mono h code hp
  | .nothing, _ | .fail _, _ | .pop, _ | .duplicate, _ | .decompose _ _, _ | .jump _, _ | .require _, _
  | .jumpIf _ _, _ | .loadName _, _ | .loadNumber _, _ | .loadText _, _ | .publish _ _, _ | .call _, _
  | .tailCall _, _ | .makeNamespace _ _, _ | .makeType _ _ _, _ | .importAll _, _
  | .importEntry _ _, _ => trivial

theorem Instr.EverySlot.mono (h : ∀ slot, P slot → Q slot) : (i : Instr) → i.EverySlot P → i.EverySlot Q
  | .mk _ op, hp => Op.EverySlot.mono h op hp

theorem Code.EverySlot.mono (h : ∀ slot, P slot → Q slot) : (c : Code) → c.EverySlot P → c.EverySlot Q
  | .mk instrs _, hp => everySlot_mono h instrs hp

theorem everySlot_mono (h : ∀ slot, P slot → Q slot) : (is : List Instr) → everySlot P is → everySlot Q is
  | [], _ => trivial
  | i :: is, hp => ⟨Instr.EverySlot.mono h i hp.1, everySlot_mono h is hp.2⟩

end

end

/-- The slots in what has been emitted are given out, from `lo` on. -/
def Emitting.Numbered (lo : Nat) (s : Emitting) : Prop :=
  ∀ i ∈ s.unit.instrs.toList, i.EverySlot (·.Between lo s.nextSlot)

/-- From a state in which `n` slots have been given out an emitter leaves the slots numbered, and its result
has a property when the next free slot is known. -/
def Emitter.Gives {α : Type} (lo n : Nat) (x : Emitter α) (Q : Nat → α → Prop) : Prop :=
  ∀ s a t, x.run s = .ok (a, t) → n ≤ s.nextSlot → s.Numbered lo →
    s.nextSlot ≤ t.nextSlot ∧ t.Numbered lo ∧ Q t.nextSlot a

/-- An emitter of which only the code counts. -/
abbrev Emitter.Numbers {α : Type} (lo n : Nat) (x : Emitter α) : Prop :=
  x.Gives lo n fun _ _ => True

/-- The links of a program whose slots have numbers from `lo` up to `n`. -/
structure Links.Between (lo n : Nat) (l : Links) : Prop where
  le : lo ≤ n
  slots : ∀ id slot, l.get? id = some slot → slot.Between lo n

namespace Emitter

variable {α β : Type} {lo n m : Nat} {x : Emitter α} {f : α → Emitter β} {Q : Nat → α → Prop}
  {R : Nat → β → Prop}

theorem Gives.pure {a : α} (h : ∀ m, n ≤ m → Q m a) : Gives lo n (pure a : Emitter α) Q := by
  intro s b t hrun hn hs
  obtain ⟨rfl, rfl⟩ := pure_eq_ok hrun
  exact ⟨Nat.le_refl _, hs, h _ hn⟩

theorem Gives.bind (hx : Gives lo n x Q) (hf : ∀ a m, n ≤ m → Q m a → Gives lo m (f a) R) :
    Gives lo n (x >>= f) R := by
  intro s b t hrun hn hs
  obtain ⟨a, r, h₁, h₂⟩ := bind_eq_ok hrun
  obtain ⟨hle, hr, hq⟩ := hx s a r h₁ hn hs
  obtain ⟨hle', ht, hb⟩ := hf a r.nextSlot (Nat.le_trans hn hle) hq r b t h₂ (Nat.le_refl _) hr
  exact ⟨Nat.le_trans hle hle', ht, hb⟩

theorem Gives.ite {p : Prop} [Decidable p] {y : Emitter α} (hx : Gives lo n x Q) (hy : Gives lo n y Q) :
    Gives lo n (if p then x else y) Q := by
  split
  · exact hx
  · exact hy

theorem Gives.lift {r : Except CompileError α} : Gives lo n (liftM r : Emitter α) fun _ _ => True := by
  intro s a t hrun _ hs
  obtain ⟨-, rfl⟩ := lift_eq_ok hrun
  exact ⟨Nat.le_refl _, hs, trivial⟩

theorem Gives.reject {failure : CompileFailure} {line : Nat} : Gives lo n (reject failure line : Emitter α) Q :=
  fun _ _ _ h => absurd h reject_ne_ok

end Emitter

section

open Emitter

variable {lo n : Nat} {links : Links}

theorem Links.Between.mono {m : Nat} (h : links.Between lo n) (hle : n ≤ m) : links.Between lo m :=
  ⟨Nat.le_trans h.le hle, fun id slot hs => (h.slots id slot hs).mono hle⟩

theorem emit_numbers {line : Nat} {op : Op} (h : op.EverySlot (·.Between lo n)) :
    Numbers lo n (emit line op) := by
  intro s a t hrun hn hs
  cases hrun
  refine ⟨Nat.le_refl _, fun i hi => ?_, trivial⟩
  rw [Builder.instrs_emit, List.mem_append, List.mem_singleton] at hi
  rcases hi with hi | rfl
  · exact hs i hi
  · exact Op.EverySlot.mono (fun _ hb => hb.mono hn) op h

theorem freshLabel_numbers {line : Nat} : Numbers lo n (freshLabel line) := by
  intro s a t hrun _ hs
  cases hrun
  exact ⟨Nat.le_refl _, hs, trivial⟩

theorem attach_numbers {label line : Nat} : Numbers lo n (attach label line) := by
  intro s a t hrun _ hs
  obtain ⟨_, r, hget, h⟩ := bind_eq_ok hrun
  cases hget
  obtain ⟨unit, r', ha, h⟩ := bind_eq_ok h
  cases h
  obtain ⟨ha, rfl⟩ := lift_eq_ok ha
  refine ⟨Nat.le_refl _, fun i hi => ?_, trivial⟩
  have hi : i ∈ unit.instrs.toList := hi
  rw [Builder.instrs_attach ha] at hi
  exact hs i hi

theorem freshSlot_gives {name : String} {line : Nat} (h : lo ≤ n) :
    Gives lo n (freshSlot name line) fun m slot => slot.Between lo m := by
  intro s a t hrun hn hs
  cases hrun
  refine ⟨Nat.le_succ _, fun i hi => ?_, Nat.le_trans h hn, Nat.lt_succ_self _⟩
  exact Instr.EverySlot.mono (fun _ hb => hb.mono (Nat.le_succ _)) i (hs i hi)

theorem inOwnUnit_gives {build : Emitter Unit} (h : Numbers lo n build) :
    Gives lo n (inOwnUnit build) fun m code => code.EverySlot (·.Between lo m) := by
  intro s code t hrun hn hs
  obtain ⟨r, hb, hf, rfl⟩ := inOwnUnit_eq_ok hrun
  obtain ⟨hle, hr, -⟩ := h _ _ r hb hn (fun i hi => by cases hi)
  obtain ⟨-, hu, -⟩ := finish_eq_ok hf
  refine ⟨hle, fun i hi => ?_, Code.everySlot_iff.mpr fun i hi => hr i (hu ▸ hi)⟩
  exact Instr.EverySlot.mono (fun _ hb => hb.mono hle) i (hs i hi)

theorem storeName_numbers {publishAt : Option (List String)} {id : Nat} {name : String} {line : Nat}
    (hl : links.Between lo n) : Numbers lo n (storeName links publishAt id name line) := by
  unfold storeName
  cases hs : links.get? id with
  | none => exact .reject
  | some slot =>
    have hslot : slot.Between lo n := hl.slots id slot hs
    cases publishAt with
    | none => exact emit_numbers hslot
    | some path =>
      refine .bind (emit_numbers trivial) fun _ m hm _ => .bind (emit_numbers trivial) fun _ m' hm' _ => ?_
      exact emit_numbers (hslot.mono (Nat.le_trans hm hm'))

mutual

theorem storePattern_numbers {publishAt : Option (List String)} (p : Pattern) (line : Nat) {n : Nat}
    (hl : links.Between lo n) : Numbers lo n (storePattern links publishAt p line) := by
  match p with
  | .wildcard | .literal _ _ => exact emit_numbers trivial
  | .name id name nameLine => exact storeName_numbers hl
  | .list items => exact storeItems_numbers items line hl
  | .type q params =>
    exact .bind (emit_numbers trivial) fun _ _ hm _ => storePatterns_numbers params q.line (hl.mono hm)

theorem storeItems_numbers {publishAt : Option (List String)} (ps : List Pattern) (line : Nat) {n : Nat}
    (hl : links.Between lo n) : Numbers lo n (storeItems links publishAt ps line) := by
  match ps with
  | [] => exact emit_numbers trivial
  | p :: ps =>
    refine .bind (emit_numbers trivial) fun _ _ hm _ =>
      .bind (storePattern_numbers p line (hl.mono hm)) fun _ _ hm' _ => ?_
    exact storeItems_numbers ps line ((hl.mono hm).mono hm')

theorem storePatterns_numbers {publishAt : Option (List String)} (ps : List Pattern) (line : Nat) {n : Nat}
    (hl : links.Between lo n) : Numbers lo n (storePatterns links publishAt ps line) := by
  match ps with
  | [] => exact .pure fun _ _ => trivial
  | p :: ps =>
    exact .bind (storePattern_numbers p line hl) fun _ _ hm _ => storePatterns_numbers ps line (hl.mono hm)

end

theorem emitCons_numbers {line : Nat} : Numbers lo n (emitCons line) :=
  .bind (emit_numbers trivial) fun _ _ _ _ => emit_numbers trivial

theorem armLabels_numbers (arms : List Arm) {n : Nat} : Numbers lo n (armLabels arms) := by
  induction arms generalizing n with
  | nil => exact .pure fun _ _ => trivial
  | cons a as ih =>
    exact .bind freshLabel_numbers fun _ _ _ _ => .bind ih fun _ _ _ _ => .pure fun _ _ => trivial

theorem emitTests_numbers (arms : List Arm) (labels : List Nat) {n : Nat} :
    Numbers lo n (emitTests arms labels) := by
  induction arms generalizing labels n with
  | nil => exact .pure fun _ _ => trivial
  | cons a as ih =>
    cases labels with
    | nil => exact .pure fun _ _ => trivial
    | cons label labels =>
      exact .bind (emit_numbers trivial) fun _ _ _ _ =>
        .bind (emit_numbers trivial) fun _ _ _ _ => ih labels

theorem emitItems_numbers {line : Nat} (slots : List Slot) {n : Nat}
    (hs : ∀ slot ∈ slots, slot.Between lo n) : Numbers lo n (emitItems line slots) := by
  induction slots generalizing n with
  | nil => exact .pure fun _ _ => trivial
  | cons slot slots ih =>
    obtain ⟨hslot, hs⟩ := List.forall_mem_cons.mp hs
    refine .bind (ih hs) fun _ _ hm _ => .bind (emit_numbers (hslot.mono hm)) fun _ _ _ _ => ?_
    exact emitCons_numbers

theorem lowerLiteral_numbers {value : Literal} {line : Nat} : Numbers lo n (lowerLiteral value line) := by
  cases value <;> exact emit_numbers trivial

theorem lowerName_numbers {q : QName} (hl : links.Between lo n) : Numbers lo n (lowerName links q) := by
  unfold lowerName QName.op
  cases hs : links.get? q.id with
  | none => exact emit_numbers trivial
  | some slot => exact emit_numbers (hl.slots _ slot hs)

mutual

theorem lowerExpr_numbers (e : Expr) (allowTail : Bool) {n : Nat} (hl : links.Between lo n) :
    Numbers lo n (lowerExpr links e allowTail) := by
  match e with
  | .call callee args line =>
    unfold lowerExpr
    split
    · split
      · rename_i scrutinee cases caseLine
        exact .bind .lift fun arms _ h₁ _ => .bind (lowerExpr_numbers scrutinee false (hl.mono h₁)) fun _ _ h₂ _ =>
          .bind freshLabel_numbers fun done _ h₃ _ => .bind (armLabels_numbers arms) fun labels _ h₄ _ =>
          .bind (emitTests_numbers arms labels) fun _ _ h₅ _ => .bind (emit_numbers trivial) fun _ _ h₆ _ =>
          .bind (lowerArms_numbers cases labels done allowTail
            ((((((hl.mono h₁).mono h₂).mono h₃).mono h₄).mono h₅).mono h₆)) fun _ _ _ _ =>
          .bind attach_numbers fun _ _ _ _ => emit_numbers trivial
      · exact .reject
      · exact .reject
    · refine .bind (lowerArgs_numbers args hl) fun _ _ hm _ => ?_
      split
      · exact .ite (emit_numbers trivial) .reject
      · exact .bind (lowerExpr_numbers callee false (hl.mono hm)) fun _ _ _ _ => emit_numbers trivial
  | .function params body line =>
    unfold lowerExpr
    refine .bind (inOwnUnit_gives ?_) fun code m _ hc => emit_numbers hc
    exact .bind (storePatterns_numbers params line hl) fun _ _ hm _ => lowerBlock_numbers body true (hl.mono hm)
  | .list elements line =>
    unfold lowerExpr
    refine .ite (.bind (emit_numbers trivial) fun _ _ hm _ => lowerPure_numbers elements line (hl.mono hm)) ?_
    refine .bind (lowerItems_gives elements line hl) fun slots _ _ hs =>
      .bind (emit_numbers trivial) fun _ _ hm _ => emitItems_numbers slots ?_
    exact fun slot hm' => (hs slot hm').mono hm
  | .literal value line =>
    unfold lowerExpr
    exact lowerLiteral_numbers
  | .name q =>
    unfold lowerExpr
    exact lowerName_numbers hl
  | .self line =>
    unfold lowerExpr
    exact .reject

theorem lowerArgs_numbers (es : List Expr) {n : Nat} (hl : links.Between lo n) :
    Numbers lo n (lowerArgs links es) := by
  match es with
  | [] => exact .pure fun _ _ => trivial
  | e :: es =>
    exact .bind (lowerArgs_numbers es hl) fun _ _ hm _ => lowerExpr_numbers e false (hl.mono hm)

theorem lowerPure_numbers (bs : List Block) (line : Nat) {n : Nat} (hl : links.Between lo n) :
    Numbers lo n (lowerPure links bs line) := by
  match bs with
  | [] => exact .pure fun _ _ => trivial
  | b :: bs =>
    exact .bind (lowerPure_numbers bs line hl) fun _ _ hm _ =>
      .bind (lowerBlock_numbers b false (hl.mono hm)) fun _ _ _ _ => emitCons_numbers

theorem lowerItems_gives (bs : List Block) (line : Nat) {n : Nat} (hl : links.Between lo n) :
    Gives lo n (lowerItems links bs line) fun m slots => ∀ slot ∈ slots, slot.Between lo m := by
  match bs with
  | [] => exact .pure fun _ _ => nofun
  | b :: bs =>
    refine .bind (lowerBlock_numbers b false hl) fun _ m hm _ =>
      .bind (freshSlot_gives (hl.mono hm).le) fun slot m' hm' hslot =>
      .bind (emit_numbers hslot) fun _ m'' hm'' _ =>
      .bind (lowerItems_gives bs line (((hl.mono hm).mono hm').mono hm'')) fun slots k hk hs =>
      .pure fun k' hk' => List.forall_mem_cons.mpr ⟨?_, fun s hmem => (hs s hmem).mono hk'⟩
    exact ((hslot.mono hm'').mono hk).mono hk'

theorem lowerArms_numbers (cases : List Block) (labels : List Nat) (done : Nat) (allowTail : Bool) {n : Nat}
    (hl : links.Between lo n) : Numbers lo n (lowerArms links cases labels done allowTail) := by
  unfold lowerArms
  split
  · rename_i pattern body line cases label labels
    exact .bind attach_numbers fun _ _ h₁ _ => .bind (storePattern_numbers pattern line (hl.mono h₁)) fun _ _ h₂ _ =>
      .bind (lowerBlock_numbers body allowTail ((hl.mono h₁).mono h₂)) fun _ _ h₃ _ =>
      .bind (emit_numbers trivial) fun _ _ h₄ _ =>
      lowerArms_numbers cases labels done allowTail ((((hl.mono h₁).mono h₂).mono h₃).mono h₄)
  · exact .pure fun _ _ => trivial

theorem lowerBlock_numbers (b : Block) (allowTail : Bool) {n : Nat} (hl : links.Between lo n) :
    Numbers lo n (lowerBlock links b allowTail) := by
  match b with
  | .result e => exact lowerExpr_numbers e allowTail hl
  | .bind p value _ rest =>
    exact .bind (lowerBlock_numbers value false hl) fun _ _ h₁ _ =>
      .bind (storePattern_numbers p value.value.line (hl.mono h₁)) fun _ _ h₂ _ =>
      lowerBlock_numbers rest allowTail ((hl.mono h₁).mono h₂)

end

theorem lowerType_numbers {path : List String} {name : QName} {isPublic : Bool} {cases : List CaseDecl} :
    Numbers lo n (lowerType path name isPublic cases) := by
  unfold lowerType
  cases name.parts.getLast? with
  | none => exact .pure fun _ _ => trivial
  | some last =>
    simp only
    split
    · exact emit_numbers trivial
    · exact .bind (emit_numbers trivial) fun _ _ _ _ => emit_numbers trivial

mutual

theorem lowerDecls_numbers {publishRoot : Bool} {path : List String} (ds : List Decl) {n : Nat}
    (hl : links.Between lo n) : Numbers lo n (lowerDecls links publishRoot path ds) := by
  match ds with
  | [] => exact .pure fun _ _ => trivial
  | d :: ds => exact .bind (lowerDecl_numbers d hl) fun _ _ hm _ => lowerDecls_numbers ds (hl.mono hm)

theorem lowerDecl_numbers {publishRoot : Bool} {path : List String} (d : Decl) {n : Nat}
    (hl : links.Between lo n) : Numbers lo n (lowerDecl links publishRoot path d) := by
  match d with
  | .space ns => exact lowerNamespace_numbers ns hl
  | .type name isPublic cases none => exact .bind lowerType_numbers fun _ _ _ _ => .pure fun _ _ => trivial
  | .type name isPublic cases (some ns) =>
    exact .bind lowerType_numbers fun _ _ hm _ =>
      .ite (.pure fun _ _ => trivial) (lowerNamespace_numbers ns (hl.mono hm))
  | .binding p value isPublic =>
    exact .bind (lowerBlock_numbers value false hl) fun _ _ hm _ =>
      storePattern_numbers p value.value.line (hl.mono hm)

theorem lowerNamespace_numbers {publishRoot : Bool} {path : List String} (ns : NamespaceDecl) {n : Nat}
    (hl : links.Between lo n) : Numbers lo n (lowerNamespace links publishRoot path ns) := by
  match ns with
  | .mk name isPublic decls =>
    exact .bind (emit_numbers trivial) fun _ _ hm _ => lowerDecls_numbers decls (hl.mono hm)

end

theorem lowerImport_numbers (i : Import) : Numbers lo n (lowerImport i) := by
  have hentries : ∀ (names : List QName) (n : Nat), Numbers lo n
      (names.forM fun q => emit i.line (.importEntry i.file q.parts)) := by
    intro names
    induction names with
    | nil => exact fun _ => .pure fun _ _ => trivial
    | cons q names ih => exact fun _ => .bind (emit_numbers trivial) fun _ m _ _ => ih m
  exact .ite (emit_numbers trivial) (hentries i.names n)

theorem lowerProgram_numbers {publishRoot : Bool} (p : Program) (hl : links.Between lo n) :
    Numbers lo n (lowerProgram links publishRoot p) := by
  have himports : ∀ (is : List Import) (n : Nat), Numbers lo n (is.forM lowerImport) := by
    intro is
    induction is with
    | nil => exact fun _ => .pure fun _ _ => trivial
    | cons i is ih => exact fun _ => .bind (lowerImport_numbers i) fun _ m _ _ => ih m
  refine .bind (himports p.imports n) fun _ _ h₁ _ =>
    .bind (lowerDecls_numbers _ (hl.mono h₁)) fun _ _ h₂ _ => ?_
  cases p.trailing with
  | none => exact .pure fun _ _ => trivial
  | some c => exact lowerExpr_numbers _ _ ((hl.mono h₁).mono h₂)

/-- The code of a program has slots of its own, with numbers that no other has. -/
theorem compile_between {p : Program} {publishRoot : Bool} {n next : Nat} {c : Code}
    (h : p.compile publishRoot n = .ok (c, next)) : n ≤ next ∧ c.EverySlot (·.Between n next) := by
  obtain ⟨hle, hslots⟩ := link_between p n
  unfold Program.compile at h
  obtain ⟨⟨_, t⟩, hlow, h⟩ := Except.bind_eq_ok h
  obtain ⟨unit, hf, h⟩ := Except.bind_eq_ok h
  cases h
  obtain ⟨-, hu, -⟩ := finish_eq_ok hf
  obtain ⟨hle', ht, -⟩ := lowerProgram_numbers p ⟨hle, hslots⟩ _ _ t hlow (Nat.le_refl _) fun i hi => by cases hi
  exact ⟨Nat.le_trans hle hle', Code.everySlot_iff.mpr fun i hi => ht i (hu ▸ hi)⟩

end

end MatchLang
