import MatchLang.Proofs.Exports.Outline

/-! What a module exports. Its clauses are performed in the order of the text, each in a part of the run of its
own, so every name of the root has the value that was written last under it; and nothing else is written. -/

namespace MatchLang

section

variable {host : Host} {spaces : List Workspace} {l : Links} {c : Code} {m m' : Machine}
  {k k' : List Instr} {clauses clauses' : List Clause}

theorem Machine.PerformsTo.append (h : m.PerformsTo host spaces l c m' clauses k)
    (h' : ∀ m₁ : Machine, m₁.InBody host spaces c m' → m₁.frame.rest = k →
      m₁.PerformsTo host spaces l c m' clauses' k') :
    m.PerformsTo host spaces l c m' (clauses ++ clauses') k' := by
  obtain ⟨ws, m₁, hp, hb, hg, hw⟩ := h
  obtain ⟨ws', m₂, hp', hb', hg', hw'⟩ := h' m₁ hb hg.rest
  have hroot : m₁.task.root = m.task.root := by
    obtain ⟨_, he⟩ := hg
    rw [he]
    rfl
  rw [hroot] at hw'
  exact ⟨ws ++ ws', m₂, hp.append hp', hb', hg.trans hg', hw.append hw'⟩

namespace Machine.InBody

theorem entries (h : m.InBody host spaces c m') {file : String} {line : Nat} (names : List QName)
    (hr : m.frame.rest = (names.map fun n => .mk line (.importEntry file n.parts)) ++ k) :
    m.PerformsTo host spaces l c m' (names.map fun n => .takes file (.entry n.parts)) k := by
  induction names generalizing m with
  | nil => exact h.nothing hr
  | cons n names ih =>
    have hn : m.PerformsTo host spaces l c m' [.takes file (.entry n.parts)]
        ((names.map fun n => .mk line (.importEntry file n.parts)) ++ k) := h.takes hr rfl
    exact hn.append fun m₁ h₁ hr₁ => ih h₁ hr₁

theorem imports (h : m.InBody host spaces c m') (is : List Import)
    (hr : m.frame.rest = is.flatMap importCode ++ k) :
    m.PerformsTo host spaces l c m' (is.flatMap Import.clauses) k := by
  induction is generalizing m with
  | nil => exact h.nothing hr
  | cons i is ih =>
    rw [List.flatMap_cons, List.append_assoc] at hr
    have hi : m.PerformsTo host spaces l c m' i.clauses (is.flatMap importCode ++ k) := by
      unfold importCode at hr
      unfold Import.clauses
      split at hr
      · rename_i hnil
        rw [if_pos hnil]
        exact h.takes hr rfl
      · rename_i hnames
        rw [if_neg hnames]
        exact h.entries i.names hr
    exact hi.append fun m₁ h₁ hr₁ => ih h₁ hr₁

theorem typed (h : m.InBody host spaces c m') {path : List String} {name : QName} {isPublic : Bool}
    {cases : List CaseDecl} (hr : m.frame.rest = typeCode path name isPublic cases ++ k) :
    m.PerformsTo host spaces l c m' (typeClauses path name isPublic cases) k := by
  unfold typeCode at hr
  unfold typeClauses
  cases hl : name.parts.getLast? with
  | none =>
    rw [hl] at hr
    exact h.nothing hr
  | some last =>
    rw [hl] at hr
    simp only at hr ⊢
    split at hr
    · rename_i hi
      rw [if_pos hi, List.nil_append]
      exact h.declares hr
    · rename_i hi
      rw [if_neg hi]
      have ho : m.PerformsTo host spaces l c m' [.opens (path ++ name.parts.dropLast) isPublic]
          (.mk name.line (.makeType last (path ++ name.parts.dropLast) (caseShapes cases)) :: k) :=
        h.opens hr
      exact ho.append fun m₁ h₁ hr₁ => h₁.declares hr₁

end Machine.InBody

mutual

theorem DeclsCode.performs (ds : List Decl) {path : List String} {i j : Nat} {k : List Instr}
    {m : Machine} (hc : DeclsCode l false ds path c i j m.frame.rest k)
    (h : m.InBody host spaces c m') :
    m.PerformsTo host spaces l c m' (declsClauses path ds) k := by
  match ds with
  | [] =>
    simp only [DeclsCode] at hc
    rw [declsClauses]
    exact h.nothing hc.2
  | d :: ds =>
    obtain ⟨n, r, hd, hds⟩ := hc
    rw [declsClauses]
    refine (DeclCode.performs d hd h).append fun m₁ h₁ hr₁ => ?_
    exact DeclsCode.performs ds (hr₁ ▸ hds) h₁
termination_by sizeOf ds

theorem DeclCode.performs (d : Decl) {path : List String} {i j : Nat} {k : List Instr}
    {m : Machine} (hc : DeclCode l false d path c i j m.frame.rest k)
    (h : m.InBody host spaces c m') :
    m.PerformsTo host spaces l c m' (d.clauses path) k := by
  match d with
  | .space ns =>
    rw [Decl.clauses]
    exact NamespaceCode.performs ns hc h
  | .type name isPublic cases none =>
    obtain ⟨r, hr, _, rfl⟩ := hc
    rw [Decl.clauses, List.append_nil]
    exact h.typed hr
  | .type name isPublic cases (some ns) =>
    obtain ⟨r, hr, hb⟩ := hc
    rw [Decl.clauses]
    refine (h.typed hr).append fun m₁ h₁ hr₁ => ?_
    simp only at hb ⊢
    split at hb
    · rename_i hn
      rw [if_pos hn]
      exact h₁.nothing (hr₁.trans hb.2)
    · rename_i hn
      rw [if_neg hn]
      exact NamespaceCode.performs ns (hr₁ ▸ hb) h₁
  | .binding p value isPublic =>
    obtain ⟨r, hv, hp⟩ := hc
    rw [Decl.clauses]
    cases isPublic with
    | true => exact h.publishes hv hp
    | false =>
      rw [Bool.and_false, Bool.or_false] at hp
      exact h.keeps hv hp
termination_by sizeOf d

theorem NamespaceCode.performs (ns : NamespaceDecl) {path : List String} {i j : Nat}
    {k : List Instr} {m : Machine} (hc : NamespaceCode l false ns path c i j m.frame.rest k)
    (h : m.InBody host spaces c m') :
    m.PerformsTo host spaces l c m' (ns.clauses path) k := by
  match ns with
  | .mk name isPublic decls =>
    obtain ⟨r, hr, hds⟩ := hc
    have ho : m.PerformsTo host spaces l c m' [.opens (path ++ name.parts) isPublic] r := h.opens hr
    rw [NamespaceDecl.clauses]
    refine ho.append fun m₁ h₁ hr₁ => ?_
    exact DeclsCode.performs decls (hr₁ ▸ hds) h₁
termination_by sizeOf ns

end

end

/-- A machine that is about to run the code of a module, in a new root that has the built-in names. -/
def Machine.Begins (module : String) (code : Code) (b : Machine) : Prop :=
  ∃ σ : Store, b.store = (σ.newTask module code).2 ∧ b.task = (σ.newTask module code).1

/-- A module that begins in `b`, perhaps with the prelude, comes to the end of its code in `m'`. -/
structure Machine.Completes (host : Host) (withPrelude : Bool) (b m' : Machine) : Prop where
  reaches : ∃ m, b.equip withPrelude = .running m ∧ m.Reaches host m'
  root : m'.task.root = b.task.root
  atEnd : m'.task.AtEnd

/-- What stands in the root of a module before its own code runs: the built-in names, and in front of them those
of the prelude. -/
def Store.beginnings (σ : Store) (withPrelude : Bool) : List Writing :=
  .taken .whole (builtins.seed (.empty true)) ::
    if withPrelude then (σ.module? preludeName).toList.map fun r => .taken .whole (σ.root r) else []

section

variable {host : Host} {spaces : List Workspace} {withPrelude : Bool} {module : String} {code : Code}
  {b m m' : Machine} {n next : Nat} {p : Program} {σ τ : Store} {v : Option Value}

theorem beginCode_eq_equip : beginCode σ withPrelude module code =
    Machine.equip { store := (σ.newTask module code).2, task := (σ.newTask module code).1, waiting := [] }
      withPrelude := rfl

theorem Machine.begins_newTask {ws : List Suspended} :
    Begins module code
      { store := (σ.newTask module code).2, task := (σ.newTask module code).1, waiting := ws } :=
  ⟨σ, rfl, rfl⟩

/-- A module that is loaded begins in the same way. -/
theorem Machine.begins_await {d : Delivery} : (m.await d module code next).Begins module code :=
  ⟨{ m.store with nextSlot := next }, rfl, rfl⟩

theorem written_seed : (Namespace.empty true).Written
    [.taken .whole (builtins.seed (.empty true))] (builtins.seed (.empty true)) := by
  refine Namespace.Written.single fun q n => ?_
  have hnone : (Namespace.empty true).valueAt? q n = none := by
    cases q <;> rfl
  rw [hnone, Option.or_none]
  cases q with
  | nil => rfl
  | cons part q =>
    rw [Namespace.valueAt?, Namespace.at?_cons, Writing.at?, Namespace.publicValueAt?,
      Namespace.publicAt?, Namespace.child?, seed_children]
    rfl

namespace Machine.Begins

theorem root_lt (hb : b.Begins module code) : b.task.root < b.store.roots.size := by
  obtain ⟨σ, hσ, ht⟩ := hb
  rw [hσ, ht]
  show σ.roots.size < (σ.roots.push _).size
  rw [Array.size_push]
  exact Nat.lt_succ_self _

theorem root_eq (hb : b.Begins module code) :
    b.store.root b.task.root = builtins.seed (.empty true) := by
  obtain ⟨σ, hσ, ht⟩ := hb
  rw [hσ, ht]
  show (σ.newRoot _).2.root σ.roots.size = _
  rw [Store.root_newRoot, if_pos rfl]

/-- The code of a module begins when the prelude, if it is asked for, has been handed over. -/
theorem equipped (hb : b.Begins module code)
    (ho : Moment.Occurs (fun _ => True) True ⟨b.equip withPrelude, spaces⟩)
    (hm : b.Completes host withPrelude m') :
    ∃ m m₀, b.equip withPrelude = .running m ∧ m.Reaches host m₀ ∧
      m₀.InBody host spaces code m' ∧ m₀.frame.rest = code.instrs ∧ m₀.task = b.task ∧
      (Namespace.empty true).Written (m₀.store.beginnings withPrelude)
        (m₀.store.root b.task.root) := by
  obtain ⟨⟨m, he, hr⟩, hroot, hend⟩ := hm
  have hbody : ∀ m₀ : Machine, m₀.task = b.task → m.Reaches host m₀ → m₀.Reaches host m' →
      m₀.InBody host spaces code m' ∧ m₀.frame.rest = code.instrs := by
    intro m₀ ht h₁ h₂
    rw [he] at ho
    have htask : ∃ σ : Store, m₀.task = (σ.newTask module code).1 := by
      obtain ⟨σ, -, hσ⟩ := hb
      exact ⟨σ, ht.trans hσ⟩
    obtain ⟨σ, hσ⟩ := htask
    refine ⟨⟨ho.reaches h₁, ?_, ?_, h₂, hroot.trans (congrArg Task.root ht.symm), hend⟩, ?_⟩
    · rw [Machine.frame, hσ]
      rfl
    · rw [hσ]
      rfl
    · rw [Machine.frame, hσ]
      rfl
  cases withPrelude with
  | false =>
    cases he
    obtain ⟨hin, hrest⟩ := hbody b rfl (.refl b) hr
    refine ⟨b, b, rfl, .refl b, hin, hrest, rfl, ?_⟩
    rw [hb.root_eq]
    exact written_seed
  | true =>
    have hl : b.Loaded host preludeName .whole (.running m) := by
      have hload : b.equip true = b.loadPrelude .whole := rfl
      rw [← he, hload]
      exact loadPrelude_loaded
    rw [he] at ho
    obtain ⟨m₀, source, h₁, h₂, hrec⟩ := hl.received hb.root_lt ho hr hroot
    obtain ⟨hin, hrest⟩ := hbody m₀ hrec.task h₁ h₂
    refine ⟨m, m₀, he, h₁, hin, hrest, hrec.task, ?_⟩
    have hw := Namespace.written_merge (hin.occurs.tidy source) hrec.merged
    rw [hb.root_eq] at hw
    have hbegin : m₀.store.beginnings true = [.taken .whole (builtins.seed (.empty true))] ++
        [.taken .whole (m₀.store.root source)] := by
      rw [Store.beginnings, hrec.module]
      rfl
    rw [hbegin]
    exact written_seed.append hw

end Machine.Begins

end

/-- The root of the task that all others are run for. -/
def Machine.bottom (m : Machine) : Nat :=
  (m.waiting.map fun w => w.task.root).getLastD m.task.root

section

variable {host : Host} {m m' : Machine} {withPrelude : Bool} {b : Machine} {τ : Store}
  {v : Option Value}

theorem Machine.bottom_deliver {source : Nat} {d : Delivery}
    (h : m.deliver source d = .running m') : m'.bottom = m.bottom := by
  rw [deliver_eq] at h
  generalize (Delivery.merge _ _ _).2 = fault at h
  cases fault with
  | none =>
    cases h
    rfl
  | some f => cases h

theorem Machine.Loaded.bottom {file : String} {d : Delivery} (h : m.Loaded host file d (.running m')) :
    m'.bottom = m.bottom := by
  have hawait : ∀ (m₀ : Machine) (d : Delivery) (file : String) (code : Code) (next : Nat),
      (m₀.await d file code next).bottom = m₀.bottom := by
    intro m₀ d file code next
    show (_ :: m₀.waiting.map fun w => w.task.root).getLastD _ = _
    rw [List.getLastD_cons]
    rfl
  generalize ht : Transition.running m' = t at h
  induction h with
  | cached _ => exact bottom_deliver ht.symm
  | faults _ => cases ht
  | begins _ _ _ =>
    cases ht
    exact hawait _ _ _ _ _
  | equips _ _ _ _ _ _ ih => exact (ih ht).trans (hawait _ _ _ _ _)

theorem Machine.bottom_step (hs : m.step host = .running m') : m'.bottom = m.bottom := by
  have hst := m.stepped host
  rw [hs] at hst
  generalize ht : Transition.running m' = t at hst
  cases hst with
  | goes _ _ _ | enters _ _ _ | restarts | returns _ _ =>
    cases ht
    rfl
  | faults _ _ => cases ht
  | @loads line op k file d _ _ =>
    have hl : (m.resume m.store m.operands line k).Loaded host file d _ := load_loaded
    rw [← ht] at hl
    exact hl.bottom
  | ends _ _ =>
    cases hw : m.waiting with
    | nil =>
      unfold finish at ht
      rw [hw] at ht
      cases ht
    | cons w ws =>
      rw [finish_cons hw] at ht
      rw [bottom_deliver ht.symm, bottom, bottom, hw, List.map_cons, List.getLastD_cons]
      rfl

theorem Machine.deliver_ne_finished {source : Nat} {d : Delivery} :
    m.deliver source d ≠ .finished τ v := by
  rw [deliver_eq]
  generalize (Delivery.merge _ _ _).2 = fault
  cases fault <;> nofun

theorem Machine.Loaded.ne_finished {file : String} {d : Delivery} {t : Transition}
    (h : m.Loaded host file d t) : t ≠ .finished τ v := by
  induction h with
  | cached _ => exact deliver_ne_finished
  | faults _ | begins _ _ _ => nofun
  | equips _ _ _ _ _ _ ih => exact ih

/-- Only a task that no other waits for comes to the end of the run. -/
theorem Machine.bottom_finished (hs : m.step host = .finished τ v) :
    m.task.AtEnd ∧ m.task.root = m.bottom ∧ m.store = τ := by
  have hst := m.stepped host
  rw [hs] at hst
  generalize ht : Transition.finished τ v = t at hst
  cases hst with
  | goes _ _ _ | enters _ _ _ | restarts | returns _ _ | faults _ _ => cases ht
  | loads _ _ => exact absurd ht.symm load_loaded.ne_finished
  | ends hr hc =>
    cases hw : m.waiting with
    | nil =>
      unfold finish at ht
      rw [hw] at ht
      cases ht
      refine ⟨⟨hr, hc⟩, ?_, rfl⟩
      rw [bottom, hw]
      rfl
    | cons w ws =>
      rw [finish_cons hw] at ht
      exact absurd ht.symm deliver_ne_finished

/-- A program that is run as a whole, and not for an import, comes to the end of its code where the run
finishes. -/
theorem Machine.completes_of_finished {fuel : Nat} (hw : b.waiting = [])
    (hf : (b.equip withPrelude).follow host fuel = .finished τ v) :
    ∃ m', b.Completes host withPrelude m' ∧ m'.store = τ := by
  have hbegin : b.bottom = b.task.root := by
    rw [bottom, hw]
    rfl
  have hequip : ∀ t, b.equip withPrelude = t →
      t ≠ .finished τ v ∧ ∀ m, t = .running m → m.bottom = b.bottom := by
    rintro t rfl
    cases withPrelude with
    | false =>
      refine ⟨nofun, fun m he => ?_⟩
      cases he
      rfl
    | true =>
      have hl : b.Loaded host preludeName .whole (b.equip true) := loadPrelude_loaded
      exact ⟨hl.ne_finished, fun m he => (he ▸ hl).bottom⟩
  cases he : b.equip withPrelude with
  | finished σ v' =>
    rw [he] at hf
    cases hf
    exact absurd rfl (hequip _ he).1
  | raised m f =>
    rw [he] at hf
    cases hf
  | running m =>
    rw [he] at hf
    obtain ⟨n, -, m', hwalk, hs⟩ := run_eq_finished.mp hf
    have hr : m.Reaches host m' := ⟨n, hwalk⟩
    obtain ⟨hend, hroot, hτ⟩ := bottom_finished hs
    have hb : m'.bottom = m.bottom :=
      hr.preserves (P := fun m₁ => m₁.bottom = m.bottom) (fun _ _ h hs => (bottom_step hs).trans h) rfl
    exact ⟨m', ⟨⟨m, he, hr⟩, by rw [hroot, hb, (hequip _ he).2 m rfl, hbegin], hend⟩, hτ⟩

end

section

variable {host : Host} {spaces : List Workspace} {withPrelude : Bool} {module : String} {code : Code}
  {b m m' : Machine} {n next : Nat} {p : Program}

/-- A module that comes to its end has performed its clauses in the order of the text, each in a part of the run of
its own: the imports, the cases of the data types, and the public bindings, which write each name with the part of
the value that it stands for, into the namespace they stand in. Bindings that are not public, and all that is
done to evaluate a value, change no root in any step. In the end every name at every path has the value that was
written last under it, the names that are there from the beginning being written first. -/
theorem names_have_what_is_written_last (hc : p.compile false n = .ok (code, next))
    (hb : b.Begins module code)
    (ho : Moment.Occurs (fun _ => True) True ⟨b.equip withPrelude, spaces⟩)
    (hm : b.Completes host withPrelude m') :
    ∃ m m₀ ws m₁, b.equip withPrelude = .running m ∧ m.Reaches host m₀ ∧ m₀.task = b.task ∧
      m₀.Performs host (p.link n).links p.clauses ws m₁ ∧ m₁.Quiet host m' ∧
      ∀ path name, (m'.store.root b.task.root).valueAt? path name =
        lastWritten (m₀.store.beginnings withPrelude ++ ws) path name := by
  obtain ⟨m, m₀, he, hr₀, hin, hrest, htask, hbegin⟩ := hb.equipped ho hm
  obtain ⟨i, r, r', hcode, hdecls, htrailing⟩ := compile_eq_ok hc
  have hclauses : m₀.PerformsTo host spaces (p.link n).links code m' p.clauses r' :=
    (hin.imports p.imports (hrest.trans hcode)).append fun m₁ h₁ hr₁ =>
      DeclsCode.performs p.root.decls (hr₁ ▸ hdecls) h₁
  obtain ⟨ws, m₁, hp, h₁, hg, hw⟩ := hclauses
  have hquiet : m₁.Quiet host m' := by
    cases ht : p.trailing with
    | none =>
      rw [ht] at htrailing
      rw [h₁.eq_of_rest (hg.rest.trans htrailing.2)]
      exact .refl
    | some call =>
      rw [ht] at htrailing
      have hb : Balanced (Machine.InBody.stretch code 1 []) 0 [] m₁.frame.rest := by
        rw [hg.rest]
        exact ExprCode.balanced call.toExpr htrailing Machine.InBody.stretch_saves
          (fun h => absurd h Bool.false_ne_true) (.done rfl rfl)
      obtain ⟨vs, m₂, line, hq, hr₂, hplace, -⟩ := h₁.passes hb
      have h₂ : m₂.InBody host spaces code m' := h₁.later hq.reaches hr₂ hplace
      have hend : m₂ = m' := h₂.eq_of_rest (by rw [hplace]; rfl)
      exact hend ▸ hq
  refine ⟨m, m₀, ws, m₁, he, hr₀, htask, hp, hquiet, fun path name => ?_⟩
  have hroot : m'.store.root b.task.root = m₁.store.root b.task.root := by
    rw [Store.root, hquiet.roots]
    rfl
  have hall : (Namespace.empty true).Written (m₀.store.beginnings withPrelude ++ ws)
      (m₁.store.root b.task.root) := by
    rw [htask] at hw
    exact hbegin.append hw
  have hnone : (Namespace.empty true).valueAt? path name = none := by
    cases path <;> rfl
  rw [hroot, hall path name, hnone, Option.or_none]

end

/-- A room that is opened twice, with a data type between. Its seat is bound two times, its lamp is bound and
then a case, and its door is for nobody. -/
def roomProgram : Program :=
  { imports := []
    root := .mk ⟨0, [], 1⟩ true
      [.space (.mk ⟨1, ["Room"], 1⟩ true
        [.binding (.list [.name 2 "seat" 2, .name 3 "lamp" 2])
            (.result (.list [.result (.literal (.text "chair") 2), .result (.literal (.text "oil") 2)] 2))
            true,
          .binding (.name 4 "door" 3) (.result (.literal (.text "oak") 3)) false]),
        .type ⟨5, ["Room", "Light"], 4⟩ true [{ name := "lamp", params := [] }] none,
        .space (.mk ⟨6, ["Room"], 5⟩ true
          [.binding (.name 7 "seat" 6) (.result (.literal (.text "bench") 6)) true])]
    trailing := none }

def roomCode : Code :=
  match roomProgram.compile false 0 with
  | .ok (code, _) => code
  | .error _ => .empty

def roomMachine : Machine :=
  (codeMachine roomCode []).updateStore fun s => { s with nextSlot := 4 }

theorem room_has_the_last_seat : ∃ m m₀ ws m₁ m', roomMachine.equip false = .running m ∧
    m.Reaches bareHost m₀ ∧ m₀.Performs bareHost (roomProgram.link 0).links roomProgram.clauses ws m₁ ∧
    m₁.Quiet bareHost m' ∧
    (∀ path name, (m'.store.root roomMachine.task.root).valueAt? path name =
      lastWritten (m₀.store.beginnings false ++ ws) path name) ∧
    (m'.store.root 0).valueAt? ["Room"] "seat" = some (.text "bench") ∧
    (m'.store.root 0).valueAt? ["Room"] "lamp" = some (.constant ⟨Builtins.count, "lamp", 0⟩) ∧
    (m'.store.root 0).valueAt? ["Room"] "door" = none := by
  have hc : roomProgram.compile false 0 = .ok (roomCode, 4) := rfl
  have hb : roomMachine.Begins "main" roomCode := ⟨{ Store.initial .deaf with nextSlot := 4 }, rfl, rfl⟩
  have hbegin : roomProgram.Begins (.initial .deaf) [] (.running roomMachine) :=
    @Program.Begins.module _ (.initial .deaf) [] roomCode 4 false false "main" rfl
  have ho : Moment.Occurs (fun _ => True) True ⟨roomMachine.equip false, []⟩ :=
    ⟨.deaf, .single (.begins hbegin)⟩
  let m' : Machine := (roomMachine.walk bareHost 26).getD roomMachine
  have hw : roomMachine.walk bareHost 26 = some m' := rfl
  have hm : roomMachine.Completes bareHost false m' :=
    ⟨⟨roomMachine, rfl, ⟨26, hw⟩⟩, rfl, ⟨rfl, rfl⟩⟩
  obtain ⟨m, m₀, ws, m₁, he, hr, -, hp, hq, hv⟩ := names_have_what_is_written_last hc hb ho hm
  exact ⟨m, m₀, ws, m₁, m', he, hr, hp, hq, hv, rfl, rfl, rfl⟩

end MatchLang
