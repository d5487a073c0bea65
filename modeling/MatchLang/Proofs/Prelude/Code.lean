import Mathlib.Data.List.Nodup
import MatchLang.Machine.Load
import MatchLang.Proofs.Code.Same
import MatchLang.Proofs.Grammar.Joining
import MatchLang.Proofs.Grammar.Numbering
import MatchLang.Proofs.Renaming.Lowering

/-! What the text of the prelude is compiled to: one public function after another. The functions on lists are
written out; their slots are counted from the first one that is free. -/

namespace MatchLang

/-- The instructions of one line. -/
def onLine (line : Nat) (ops : List Op) : List Instr :=
  ops.map (.mk line)

/-- A public name that is bound to a function. -/
structure Definition where
  slot : Slot
  arity : Nat
  code : Code

/-- The function is made, published and kept. -/
def Definition.instrs (d : Definition) : List Instr :=
  onLine d.slot.line
    [.loadFunction d.code d.arity, .duplicate, .publish d.slot.name [], .saveLocal d.slot]

namespace Prelude

variable (n : Nat)

/-- The test of an arm, and the fault if there is no arm left. -/
def testCode (first second outer : Nat) (shape : Shape) : List Instr :=
  onLine first [.duplicate, .jumpIf shape 1] ++ onLine second [.duplicate, .jumpIf .any 2] ++
    onLine outer [.fail "no match"]

def consOf (line : Nat) (front back : Slot) : List Instr :=
  onLine line [.loadLocal back, .loadLocal front, .loadName ["::"], .call 2]

/-- A function that puts its second argument in front of its first. -/
def pushCode (acc x : Slot) : Code :=
  .mk (onLine acc.line [.saveLocal acc, .saveLocal x] ++ consOf acc.line x acc) []

def choose : Definition :=
  let c : Slot := ⟨n + 18, "c", 15⟩
  let yes : Slot := ⟨n + 19, "then", 15⟩
  let no : Slot := ⟨n + 20, "else", 15⟩
  { slot := ⟨n + 4, "if", 15⟩
    arity := 3
    code := .mk (onLine 15 [.saveLocal c, .saveLocal yes, .saveLocal no, .loadLocal c] ++
      testCode 15 15 15 (.type ["True"] []) ++
      onLine 15 [.decompose ["True"] 0, .loadLocal yes, .call 0, .jump 0, .pop, .loadLocal no, .call 0,
        .jump 0, .nothing]) [17, 9, 13] }

def fold : Definition :=
  let f : Slot := ⟨n + 21, "f", 19⟩
  let acc : Slot := ⟨n + 22, "acc", 19⟩
  let xs : Slot := ⟨n + 23, "xs", 19⟩
  let x : Slot := ⟨n + 24, "x", 21⟩
  let rest : Slot := ⟨n + 25, "rest", 21⟩
  { slot := ⟨n + 5, "fold", 19⟩
    arity := 3
    code := .mk (onLine 19 [.saveLocal f, .saveLocal acc, .saveLocal xs] ++ onLine 20 [.loadLocal xs] ++
      testCode 21 22 20 (.type ["::"] [.any, .any]) ++
      onLine 21 [.decompose ["::"] 2, .saveLocal x, .saveLocal rest, .loadLocal rest, .loadLocal x,
        .loadLocal acc, .loadLocal f, .call 2, .loadLocal f, .tailCall 3, .jump 0] ++
      onLine 22 [.pop, .loadLocal acc, .jump 0] ++ onLine 20 [.nothing]) [23, 9, 20] }

def reverse : Definition :=
  let xs : Slot := ⟨n + 26, "xs", 26⟩
  { slot := ⟨n + 6, "reverse", 26⟩
    arity := 1
    code := .mk (onLine 26 [.saveLocal xs, .loadLocal xs, .loadName ["Empty"],
      .loadFunction (pushCode ⟨n + 27, "acc", 26⟩ ⟨n + 28, "x", 26⟩) 2, .loadLocal (fold n).slot,
      .call 3]) [] }

/-- A function that puts what becomes of its second argument in front of its first. -/
def pushResultCode : Code :=
  let acc : Slot := ⟨n + 33, "acc", 30⟩
  let x : Slot := ⟨n + 34, "x", 30⟩
  .mk (onLine 30 [.saveLocal acc, .saveLocal x, .loadLocal acc, .loadLocal x,
    .loadLocal ⟨n + 31, "f", 30⟩, .call 1, .loadName ["::"], .call 2]) []

def map : Definition :=
  let f : Slot := ⟨n + 31, "f", 30⟩
  let xs : Slot := ⟨n + 32, "xs", 30⟩
  { slot := ⟨n + 8, "map", 30⟩
    arity := 2
    code := .mk (onLine 30 [.saveLocal f, .saveLocal xs, .loadLocal xs, .loadName ["Empty"],
      .loadFunction (pushResultCode n) 2, .loadLocal (fold n).slot, .call 3, .loadLocal (reverse n).slot,
      .call 1]) [] }

/-- A function that puts its second argument in front of its first if it should be kept. -/
def keepCode : Code :=
  let acc : Slot := ⟨n + 38, "acc", 33⟩
  let x : Slot := ⟨n + 39, "x", 33⟩
  .mk (onLine 33 [.saveLocal acc, .saveLocal x, .loadFunction (.mk (onLine 33 [.loadLocal acc]) []) 0,
    .loadFunction (.mk (consOf 33 x acc) []) 0, .loadLocal x, .loadLocal ⟨n + 35, "p", 32⟩, .call 1,
    .loadLocal (choose n).slot, .call 3]) []

def filter : Definition :=
  let p : Slot := ⟨n + 35, "p", 32⟩
  let xs : Slot := ⟨n + 36, "xs", 32⟩
  let keep : Slot := ⟨n + 37, "keep", 33⟩
  { slot := ⟨n + 9, "filter", 32⟩
    arity := 2
    code := .mk (onLine 32 [.saveLocal p, .saveLocal xs] ++
      onLine 33 [.loadFunction (keepCode n) 2, .saveLocal keep] ++
      onLine 34 [.loadLocal xs, .loadName ["Empty"], .loadLocal keep, .loadLocal (fold n).slot, .call 3,
        .loadLocal (reverse n).slot, .call 1]) [] }

def append : Definition :=
  let xs : Slot := ⟨n + 40, "xs", 37⟩
  let ys : Slot := ⟨n + 41, "ys", 37⟩
  { slot := ⟨n + 10, "append", 37⟩
    arity := 2
    code := .mk (onLine 37 [.saveLocal xs, .saveLocal ys, .loadLocal xs, .loadLocal (reverse n).slot,
      .call 1, .loadLocal ys, .loadFunction (pushCode ⟨n + 42, "acc", 37⟩ ⟨n + 43, "x", 37⟩) 2,
      .loadLocal (fold n).slot, .call 3]) [] }

/-- The functions on lists, and the one that they use. -/
def listFunctions : List Definition :=
  [choose n, fold n, reverse n, map n, filter n, append n]

end Prelude

/-- Instructions read as definitions. -/
def readDefinitions : List Instr → Option (List Definition)
  | [] => some []
  | .mk l (.loadFunction code arity) :: .mk l₁ .duplicate :: .mk l₂ (.publish name []) ::
      .mk l₃ (.saveLocal slot) :: is =>
    if name = slot.name ∧ [l, l₁, l₂, l₃].all (· = slot.line) then
      (readDefinitions is).map (⟨slot, arity, code⟩ :: ·)
    else none
  | _ => none

def Definition.same (d e : Definition) : Bool :=
  d.slot == e.slot && d.arity == e.arity && d.code.same e.code

/-- What is there to check about the code of the prelude, with its slots counted from zero. -/
def definesLists (is : List Instr) : Bool :=
  match readDefinitions is with
  | none => false
  | some ds => ((ds.map (·.slot.name)).Nodup && (ds.map (·.slot.id)).Nodup &&
      ds.all fun d => d.slot.name ∉ ["::", "Empty"]) &&
      (Prelude.listFunctions 0).all fun e => ds.any e.same

/-- A name that no program has. -/
def noName : String := ""

/-- Some names are declared in a program, and none of them is empty. -/
def Program.namesAll (p : Program) : Bool :=
  p.groups.all (fun g => g.all fun d => d.leaf.name ≠ noName) &&
    p.uses.all (fun u => u.parts ≠ [noName]) && 0 < (p.link 0).nextSlot

def checksPrelude (r : Except ParseError Program) : Bool :=
  match r with
  | .error _ => false
  | .ok p => p.namesAll &&
    match p.compile false 0 with
    | .ok (.mk is [], _) => definesLists is
    | _ => false

set_option maxRecDepth 100000 in
theorem prelude_checks : checksPrelude (Program.read preludeSource) = true := by
  have hlist : ∃ l, preludeSource = String.ofList l ∧
      checksPrelude (Program.read (String.ofList l)) = true := by
    unfold preludeSource
    refine ⟨_, rfl, ?_⟩
    unfold Program.read scan
    rw [String.toList_ofList]
    decide +kernel
  obtain ⟨l, hl, hr⟩ := hlist
  rw [hl]
  exact hr

/-- The code does not depend on the first free slot, but for the numbers of its slots. -/
theorem Program.compile_renumber {ls : List Lexeme} {p : Program} (hp : Program.ofLexemes ls = .ok p)
    (h : p.namesAll = true) (n : Nat) :
    p.compile false n = (p.compile false 0).map fun r => (r.1.mapSlots (·.renumber 0 n), n + r.2) := by
  have hpos : 0 < (p.link 0).nextSlot := by
    rw [namesAll, Bool.and_eq_true, decide_eq_true_eq] at h
    exact h.2
  exact Program.compile_relocate (Program.ids_nodup hp) hpos n

theorem readDefinitions_eq_some {is : List Instr} {ds : List Definition}
    (h : readDefinitions is = some ds) : is = ds.flatMap Definition.instrs := by
  fun_induction readDefinitions is generalizing ds with
  | case1 =>
    cases h
    rfl
  | case2 l code arity l₁ l₂ name l₃ slot is hc ih =>
    obtain ⟨ds', hds, rfl⟩ := Option.map_eq_some_iff.mp h
    obtain ⟨rfl, hlines⟩ := hc
    simp only [List.all_cons, List.all_nil, Bool.and_true, Bool.and_eq_true, decide_eq_true_eq] at hlines
    obtain ⟨rfl, rfl, rfl, rfl⟩ := hlines
    rw [List.flatMap_cons, ← ih hds]
    rfl
  | case3 | case4 => cases h

theorem Definition.eq_of_same {d e : Definition} (h : d.same e = true) : d = e := by
  simp only [same, Bool.and_eq_true, beq_iff_eq] at h
  obtain ⟨⟨hslot, harity⟩, hcode⟩ := h
  obtain ⟨slot, arity, code⟩ := d
  obtain ⟨slot', arity', code'⟩ := e
  obtain rfl : slot = slot' := hslot
  obtain rfl : arity = arity' := harity
  rw [Code.eq_of_same code code' hcode]

/-- Definitions with different names and slots, among which are the functions on lists. -/
structure Prelude.Defines (n : Nat) (ds : List Definition) : Prop where
  names : (ds.map (·.slot.name)).Nodup
  slots : (ds.map (·.slot.id)).Nodup
  spares : ∀ d ∈ ds, d.slot.name ∉ ["::", "Empty"]
  lists : ∀ e ∈ Prelude.listFunctions n, e ∈ ds

theorem defines_of_definesLists {is : List Instr} (h : definesLists is = true) :
    ∃ ds, is = ds.flatMap Definition.instrs ∧ Prelude.Defines 0 ds := by
  unfold definesLists at h
  cases hr : readDefinitions is with
  | none =>
    rw [hr] at h
    cases h
  | some ds =>
    rw [hr] at h
    simp only [Bool.and_eq_true, decide_eq_true_eq, List.all_eq_true] at h
    obtain ⟨⟨⟨hnames, hslots⟩, hspares⟩, hlists⟩ := h
    refine ⟨ds, readDefinitions_eq_some hr, hnames, hslots, hspares, fun e he => ?_⟩
    obtain ⟨d, hd, hs⟩ := List.any_eq_true.mp (hlists e he)
    exact Definition.eq_of_same hs ▸ hd

/-- The definition with its slots counted from another one on. -/
def Definition.renumber (n : Nat) (d : Definition) : Definition :=
  { slot := d.slot.renumber 0 n, arity := d.arity, code := d.code.mapSlots (·.renumber 0 n) }

theorem Definition.instrs_renumber (n : Nat) (d : Definition) :
    d.instrs.map (·.mapSlots (·.renumber 0 n)) = (d.renumber n).instrs := rfl

theorem Prelude.listFunctions_renumber (n : Nat) :
    (Prelude.listFunctions 0).map (Definition.renumber n) = Prelude.listFunctions n := rfl

theorem Prelude.Defines.renumber {ds : List Definition} (h : Prelude.Defines 0 ds) (n : Nat) :
    Prelude.Defines n (ds.map (Definition.renumber n)) where
  names := by
    rw [List.map_map]
    exact h.names
  slots := by
    have hslots : (ds.map (Definition.renumber n)).map (·.slot.id) = (ds.map (·.slot.id)).map (n + ·) := by
      rw [List.map_map, List.map_map]
      rfl
    rw [hslots]
    exact List.Nodup.map (fun _ _ => Nat.add_left_cancel) h.slots
  spares := List.forall_mem_map.mpr h.spares
  lists := by
    rw [← Prelude.listFunctions_renumber]
    exact List.forall_mem_map.mpr fun e he => List.mem_map_of_mem (h.lists e he)

theorem compiles_of_checksPrelude {source : String}
    (h : checksPrelude (Program.read source) = true) (file : String) (n : Nat) :
    ∃ ds next, compileModule file source n = .ok (.mk (ds.flatMap Definition.instrs) [], next) ∧
      Prelude.Defines n ds := by
  unfold compileModule
  cases hr : Program.read source with
  | error e =>
    rw [hr] at h
    cases h
  | ok p =>
    rw [hr] at h
    obtain ⟨ls, -, hp⟩ := Program.read_eq_ok.mp hr
    obtain ⟨hnames, hdefines⟩ := Bool.and_eq_true_iff.mp h
    have hcompile := Program.compile_renumber hp hnames n
    split at hdefines
    · rename_i is next hc
      obtain ⟨ds, rfl, hds⟩ := defines_of_definesLists hdefines
      refine ⟨ds.map (Definition.renumber n), n + next, ?_, hds.renumber n⟩
      have hcode : (Code.mk (ds.flatMap Definition.instrs) []).mapSlots (·.renumber 0 n) =
          .mk ((ds.map (Definition.renumber n)).flatMap Definition.instrs) [] := by
        rw [Code.mapSlots, instrsMapSlots_eq, List.map_flatMap, List.flatMap_map]
        rfl
      rw [hc, Except.map, hcode] at hcompile
      simp only [hcompile]
    · cases hdefines

/-- The prelude is compiled to definitions, whatever the first free slot is. -/
theorem prelude_compiles (n : Nat) : ∃ ds next,
    compileModule preludeName preludeSource n = .ok (.mk (ds.flatMap Definition.instrs) [], next) ∧
      Prelude.Defines n ds :=
  compiles_of_checksPrelude prelude_checks preludeName n

end MatchLang
