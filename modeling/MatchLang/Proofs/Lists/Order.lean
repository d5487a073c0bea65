import MatchLang.Proofs.Lists.Abreast
import MatchLang.Proofs.Session.Assembled

/-! Pure list literals against evaluation from left to right. The code of a literal whose elements are pure puts
the list together from its end, and calls what is called `::` before the elements in front are evaluated. Whether
a run can tell depends on what is called there while those elements are evaluated. -/

namespace MatchLang

/-- Two runs have come to the end of a literal in the activation of `m`, each with a value, and the machines
are the same from there on, but for numbers and for slots. -/
def EndsAlike (ρ : Numbering) (w : Slack) (m : Machine) (line : Nat) (k : List Instr) (m' n' : Machine) :
    Prop :=
  ∃ ρ' σ τ v v', ρ.Le ρ' ∧ m' = m.resume σ (v :: m.operands) line k ∧
    n' = m.resume τ (v' :: m.operands) line k ∧ m'.Like ρ' w n'

/-- With these instructions left to run instead. -/
def Machine.withRest (m : Machine) (is : List Instr) : Machine :=
  m.resume m.store m.operands m.frame.line is

section

variable {κ : Registry} {h : Nat} {ρ : Numbering} {m : Machine} {l : Links} {elements : List Block}
  {line i j : Nat} {allowTail : Bool} {c : Code} {is k : List Instr} {items : List Item}

/-- The code that evaluates pure elements in their order. -/
theorem ItemsCode.ordered {slots : List Slot} (hp : allPure elements)
    (hc : ItemsCode l elements c line slots i j is
      (.mk line (.loadName [emptyName]) :: (consCode line slots ++ k))) :
    ∃ items, List.Forall₂ (Item.Of l) elements items ∧ slots.length = items.length ∧
      is = orderedCode line items slots k :=
  hc.items hp

/-- The functions of an item are balanced where its code is. -/
theorem Machine.Ok.items_balanced (hm : m.Ok κ h) (hr : m.frame.rest = (Item.list items line).code k) :
    EveryItem (fun code arity => Balanced (.body code) arity [] code.instrs) items := by
  obtain ⟨s, n, ps, hs, hb, -⟩ := hm.current
  have hbalanced : ∃ n, Balanced s n ps ((Item.list items line).code k) := ⟨n, hr ▸ hb⟩
  refine (Item.every_of (Q := fun is => ∃ n, Balanced s n ps is) ?_ ?_ (Item.list items line) hbalanced).1
  · rintro line code arity k ⟨n, hb⟩
    cases hb with
    | done _ he => cases he.trans hs
    | loadFunction hcode _ => exact hcode
  · rintro line op k ⟨n, hb⟩ hop
    cases hb with
    | done _ he => cases he.trans hs
    | loadName hk | loadNumber hk | loadText hk | loadFunction _ hk | call hk => exact ⟨_, hk⟩
    | _ => exact hop.elim

/-- Between the beginning of a literal and its end a run goes either way. -/
theorem Machine.Ok.ordered {w : Slack} {o : Outlook} {slots : List Slot} {host : Host} (hok : m.Ok κ h)
    (hr : m.frame.rest = (Item.list items line).code k) (hm : m.Like ρ w m) (ho : o.On m m.store)
    (hcalm : (∀ x ∈ items.dropLast, x.Flat) ∨ o.Conses m m.store) (hl : slots.length = items.length)
    (hs : ∀ slot ∈ slots, w.hidden slot.id ∧ w.held slot.id = none) (hd : (slots.map Slot.id).Nodup)
    (hw : w.Loose) (hscope : w.scope = m.frame.scope) :
    Together host w (EndsAlike ρ w m line k) m (m.withRest (orderedCode line items slots k)) := by
  have hpass : w.passes ((Item.list items line).code k) := hr ▸ hm.frame.passes
  have hk : w.passes k := (Item.every_passes hpass).2
  have hab : Abreast κ ρ w m m.store m.store :=
    ⟨hm.store, hok.store, rfl, Nat.le_refl _, hm.frame.closure⟩
  have hstart : m.Reaches host (m.resume m.store (o.empty :: m.operands) line (frontsCode line items k)) := by
    have hself : m = m.withRest ((Item.list items line).code k) := by rw [withRest, ← hr, m.resume_self]
    have hload : (m.withRest ((Item.list items line).code k)).Reaches host
        (m.resume m.store (o.empty :: m.operands) line (frontsCode line items k)) :=
      reaches_loadName ho.empty
    rwa [← hself] at hload
  refine .head hstart (.refl _) ?_
  refine (hab.ordered ho hok.ready items hcalm (hok.items_balanced hr) (w.passes_cons _ _ _ hpass).2 hl hs hd hw
    hscope).imp (fun ρ _ _ h => ⟨ρ, h⟩) fun m' n' h => ?_
  obtain ⟨ρ', σ, τ, v, v', hρ, ha, hv, -, rfl, rfl⟩ := h
  exact ⟨ρ', σ, τ, v, v', hρ, rfl, rfl, hm.resume hρ ha.like (.cons hv (hm.task.operands.mono hρ _)) hk⟩

/-- A list literal with pure elements, and slots that nothing else has to do with. If no element but the last is
itself a list with elements, or if what is called `::` makes a case with two fields or more, then a run can
not tell whether the elements are evaluated in their order: either way it comes to the same value with the
same output, or to the same failure, or to no end. -/
theorem pure_lists_keep_their_order {ws : List Workspace} (ha : Moment.Occurs (fun _ => True) True ⟨.running m, ws⟩)
    (hp : allPure elements)
    (hc : ExprCode l (.list elements line) m.frame.closure.code allowTail i j m.frame.rest k) :
    ∃ items, List.Forall₂ (Item.Of l) elements items ∧ m.frame.rest = (Item.list items line).code k ∧
      ∀ (slots : List Slot) (ρ : Numbering) (host : Host), slots.length = items.length →
        (slots.map Slot.id).Nodup → m.Like ρ (.hiding m.frame.scope (· ∈ slots.map Slot.id)) m →
        (∀ name ∈ [unitName, emptyName], ∃ v, m.home.findValue [name] = .ok v) →
        ((∀ x ∈ items.dropLast, x.Flat) ∨
          ∃ d : Case, 2 ≤ d.arity ∧ m.home.findValue [consName] = .ok d.value) →
        Together host (.hiding m.frame.scope (· ∈ slots.map Slot.id))
          (EndsAlike ρ (.hiding m.frame.scope (· ∈ slots.map Slot.id)) m line k) m
          (m.withRest (orderedCode line items slots k)) := by
  obtain ⟨κ, h, hok⟩ : ∃ κ h, m.Ok κ h := by
    obtain ⟨_, _, κ, _, hok, _⟩ := ha.ok.now
    exact ⟨κ, _, hok⟩
  obtain ⟨x, hx, hr⟩ := ExprCode.item (.list elements line) hp hc
  cases hx with
  | @list _ items _ hitems =>
    refine ⟨items, hitems, hr, fun slots ρ host hl hd hm hnames hcalm => ?_⟩
    obtain ⟨unit, hunit⟩ := hnames unitName (by simp)
    obtain ⟨empty, hempty⟩ := hnames emptyName (by simp)
    let o (d : Case) : Outlook := ⟨m.frame.closure, m.frame.scope, unit, empty, d⟩
    have ho : ∀ d, (o d).On m m.store := fun d => ⟨rfl, rfl, hunit, hempty⟩
    have hrun : ∀ d, ((∀ x ∈ items.dropLast, x.Flat) ∨ (o d).Conses m m.store) → Together host _ _ m _ :=
      fun d hcalm => hok.ordered hr hm (ho d) hcalm hl (fun slot hs => ⟨List.mem_map_of_mem hs, rfl⟩) hd
        (Slack.hiding_loose _ _) rfl
    rcases hcalm with hflat | ⟨d, ha, hd⟩
    · exact hrun builtins.cons (.inl hflat)
    · have hvalue : d.value = .constructor d := if_neg (by omega)
      exact hrun d (.inr ⟨hvalue ▸ hd, ha⟩)

end

/-- The elements of the literal in `let x = ['a' { y -> y }]`. -/
def mixedElements : List Block :=
  [.result (.literal (.text "a") 1),
    .result (.function [.name 2 "y" 1] (.result (.name ⟨3, ["y"], 1⟩)) 1)]

def mixedProgram : Program :=
  { imports := []
    root := .mk ⟨0, [], 1⟩ true [.binding (.name 1 "x" 1) (.result (.list mixedElements 1)) false]
    trailing := none }

def returnUnit : Code :=
  .mk [.mk 1 (.saveLocal ⟨1, "y", 1⟩), .mk 1 (.loadLocal ⟨1, "y", 1⟩)] []

def mixedItems : List Item :=
  [.literal (.text "a") 1, .function returnUnit 1 1]

def mixedUnit : Code :=
  .mk [.mk 1 (.loadName ["Empty"]), .mk 1 (.loadFunction returnUnit 1), .mk 1 (.loadName ["::"]),
    .mk 1 (.call 2), .mk 1 (.loadText "a"), .mk 1 (.loadName ["::"]), .mk 1 (.call 2),
    .mk 1 (.saveLocal ⟨0, "x", 1⟩)] []

/-- The machine that begins with it. -/
def mixedMachine : Machine :=
  (codeMachine mixedUnit []).updateStore fun s => { s with nextSlot := 2 }

theorem mixedUnit_spares : mixedUnit.Spares (· ∈ [2, 3]) := by
  have hinner : returnUnit.Spares (· ∈ [2, 3]) := by
    refine .of_keeps fun line op hi => ?_
    simp only [returnUnit, Code.instrs, List.mem_cons, Instr.mk.injEq, List.not_mem_nil, or_false] at hi
    rcases hi with ⟨-, rfl⟩ | ⟨-, rfl⟩ <;> simp [Op.Keeps]
  refine .of_keeps fun line op hi => ?_
  simp only [mixedUnit, Code.instrs, List.mem_cons, Instr.mk.injEq, List.not_mem_nil, or_false, ← and_or_left] at hi
  obtain ⟨-, hi⟩ := hi
  rcases hi with rfl | rfl | rfl | rfl | rfl | rfl | rfl | rfl <;>
    first | exact hinner | simp [Op.Keeps]

theorem mixed_list_in_either_order :
    ∃ ρ, Together bareHost (.hiding 0 (· ∈ [2, 3]))
      (EndsAlike ρ (.hiding 0 (· ∈ [2, 3])) mixedMachine 1 (mixedUnit.instrs.drop 7)) mixedMachine
      (mixedMachine.withRest
        (orderedCode 1 mixedItems [⟨2, itemName, 1⟩, ⟨3, itemName, 1⟩] (mixedUnit.instrs.drop 7))) := by
  have hb : mixedProgram.Begins (.initial .deaf) [] (.running mixedMachine) :=
    @Program.Begins.module _ (.initial .deaf) [] mixedUnit 2 false false "main" rfl
  have hc : ExprCode (mixedProgram.link 0).links (.list mixedElements 1)
      mixedMachine.frame.closure.code false 1 1 mixedMachine.frame.rest (mixedUnit.instrs.drop 7) := by
    simp only [ExprCode]
    refine ⟨_, rfl, 1, _, ⟨1, _, ⟨rfl, rfl⟩, ?_⟩, rfl, rfl⟩
    exact ⟨returnUnit, _, ⟨_, ⟨_, rfl, rfl⟩, rfl⟩, ⟨rfl, rfl⟩, rfl⟩
  obtain ⟨htask, hσ⟩ := (Store.initial_like .deaf (w := .hiding 0 (· ∈ [2, 3])) (fun _ => trivial) trivial
    fun _ => rfl).newTask mixedUnit_spares "main"
  have hlike : mixedMachine.Like _ (.hiding 0 (· ∈ [2, 3])) mixedMachine := ⟨hσ.withNextSlot 2, htask, .nil⟩
  obtain ⟨items, hitems, hr, hrun⟩ := pure_lists_keep_their_order ⟨.deaf, .single (.begins hb)⟩ rfl hc
  obtain rfl : items = mixedItems := by
    obtain ⟨x, _, hx, hxs, rfl⟩ := List.forall₂_cons_left_iff.mp hitems
    obtain ⟨y, _, hy, hnil, rfl⟩ := List.forall₂_cons_left_iff.mp hxs
    cases hnil
    cases hx
    cases hy
    cases hr
    rfl
  refine ⟨_, hrun [⟨2, itemName, 1⟩, ⟨3, itemName, 1⟩] _ bareHost rfl (by decide) hlike ?_ (.inl ?_)⟩
  · intro name hname
    simp only [List.mem_cons, List.not_mem_nil, or_false] at hname
    rcases hname with rfl | rfl
    · exact ⟨builtins.unitValue, rfl⟩
    · exact ⟨builtins.emptyList, rfl⟩
  · simp [mixedItems, Item.Flat]

/-- What a run has written when it has come to its end. -/
def Ending.written? : Ending → Option (List Output)
  | .finished σ _ => some σ.console.output.toList
  | _ => none

/-- The elements of the literal in `public let :: = { h t -> (println h) } (println [['a'] ['b']])`. -/
def nestedElements : List Block :=
  [.result (.list [.result (.literal (.text "a") 2)] 2), .result (.list [.result (.literal (.text "b") 2)] 2)]

def loudProgram : Program :=
  { imports := []
    root := .mk ⟨0, [], 1⟩ true
      [.binding (.name 1 "::" 1) (.result (.function [.name 2 "h" 1, .name 3 "t" 1]
        (.result (.call (.name ⟨4, ["println"], 1⟩) [.name ⟨5, ["h"], 1⟩] 1)) 1)) true]
    trailing := some { callee := .name ⟨6, ["println"], 2⟩, args := [.list nestedElements 2], line := 2 } }

def nestedItems : List Item :=
  [.list [.literal (.text "a") 2] 2, .list [.literal (.text "b") 2] 2]

def printUnit : List Instr :=
  [.mk 2 (.loadName ["println"]), .mk 2 (.call 1)]

def loudUnit : Code :=
  .mk (.mk 1 (.loadFunction (.mk [.mk 1 (.saveLocal ⟨1, "h", 1⟩), .mk 1 (.saveLocal ⟨2, "t", 1⟩),
      .mk 1 (.loadLocal ⟨1, "h", 1⟩), .mk 1 (.loadName ["println"]), .mk 1 (.call 1)] []) 2) ::
    .mk 1 .duplicate :: .mk 1 (.publish "::" []) :: .mk 1 (.saveLocal ⟨0, "::", 1⟩) ::
    (Item.list nestedItems 2).code printUnit) []

def loudMachine : Machine :=
  let (task, store) := ({ Store.initial (.listening []) with nextSlot := 3 }).newTask "main" loudUnit
  { store, task, waiting := [] }

def nestedSlots : List Slot :=
  [⟨3, itemName, 2⟩, ⟨4, itemName, 2⟩]

/-- Where a function that prints is called `::`, the lists in a list are printed from the last one on; if they are
evaluated in their order, they are printed from the first one on. -/
theorem nested_lists_print_from_the_end : ∃ m : Machine,
    Moment.Occurs (fun _ => True) True ⟨.running m, []⟩ ∧ m.store.nextSlot = 3 ∧ allPure nestedElements ∧
      ExprCode (loudProgram.link 0).links (.list nestedElements 2) m.frame.closure.code false 3 3 m.frame.rest
        printUnit ∧
      ItemsCode (loudProgram.link 0).links nestedElements m.frame.closure.code 2 nestedSlots 3 5
        (orderedCode 2 nestedItems nestedSlots printUnit)
        (.mk 2 (.loadName [emptyName]) :: (consCode 2 nestedSlots ++ printUnit)) ∧
      (m.run bareHost 60).written? =
        some [.line "b", .line "Unit", .line "a", .line "Unit", .line "Unit"] ∧
      ((m.withRest (orderedCode 2 nestedItems nestedSlots printUnit)).run bareHost 60).written? =
        some [.line "a", .line "b", .line "Unit", .line "Unit", .line "Unit"] := by
  have hb : loudProgram.Begins (.initial (.listening [])) [] (.running loudMachine) :=
    @Program.Begins.module _ (.initial (.listening [])) [] loudUnit 3 false false "main" rfl
  have hw : loudMachine.walk bareHost 4 = some ((loudMachine.walk bareHost 4).getD loudMachine) := rfl
  have hinner : ∀ (s : String) (i : Nat) (c : Code) (k : List Instr),
      BlockCode (loudProgram.link 0).links (.result (.list [.result (.literal (.text s) 2)] 2)) c false i i
        ((Item.list [.literal (.text s) 2] 2).code k) k := by
    intro s i c k
    simp only [BlockCode, ExprCode]
    exact ⟨_, rfl, i, _, ⟨rfl, rfl⟩, rfl, rfl⟩
  refine ⟨(loudMachine.walk bareHost 4).getD loudMachine, ?_, rfl, rfl, ?_, ?_, ?_, ?_⟩
  · exact ⟨.listening [], .head (.begins hb) (Moment.Later.walk trivial hw [])⟩
  · simp only [ExprCode]
    exact ⟨_, rfl, 3, _, ⟨3, _, ⟨rfl, rfl⟩, hinner "b" 3 _ _⟩, hinner "a" 3 _ _⟩
  · exact ⟨3, _, _, hinner "a" 3 _ _, rfl, 4, _, _, hinner "b" 4 _ _, rfl, rfl, rfl, rfl⟩
  · decide +kernel
  · decide +kernel

end MatchLang
