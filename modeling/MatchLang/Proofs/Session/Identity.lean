import MatchLang.Proofs.Namespace.Selection
import MatchLang.Proofs.Pattern.Pieces
import MatchLang.Proofs.Session.Once
import MatchLang.Proofs.Value.Every

/-! Types keep their identity. Whatever way the names of a module take from one root to another, they stand for
the same values and the same types, since the module is run once and does not change afterwards. -/

namespace MatchLang

/-- No namespace of any root has two children of one name. -/
def Holding.Tidy (h : Holding) : Prop :=
  ∀ (r : Nat) (ns : Namespace), h.roots[r]? = some ns → ns.Tidy

/-- The values that a case builds, with their fields. -/
inductive Case.Builds (c : Case) : Value → List Value → Prop where
  | constant : c.value = .constant c → Builds c (.constant c) []
  | record {fields} : applyFull c.value fields = .build c fields [] →
    Builds c (.record c fields) fields

namespace Holding

variable {h h' : Holding}

theorem Moves.tidy (hm : Moves h h') (ht : h.Tidy) : h'.Tidy := by
  have hget : ∀ {ρ : Array Namespace} {ms es : List (String × Nat)} {rs : List Nat} (r : Nat),
      Tidy ⟨ρ, ms, es, rs⟩ → (ρ.getD r (.empty true)).Tidy := by
    intro ρ ms es rs r ht
    rw [Array.getD_eq_getD_getElem?]
    cases hr : ρ[r]? with
    | none => exact Namespace.tidy_of_nil rfl
    | some ns => exact ht r ns hr
  have hmodify : ∀ {ρ : Array Namespace} {ms es : List (String × Nat)} {rs : List Nat} {i : Nat}
      {ns : Namespace}, Tidy ⟨ρ, ms, es, rs⟩ → ns.Tidy → Tidy ⟨ρ.modify i fun _ => ns, ms, es, rs⟩ := by
    intro ρ ms es rs i ns ht hns r c hr
    have hr : (ρ.modify i fun _ => ns)[r]? = some c := hr
    rw [Array.getElem?_modify] at hr
    split at hr
    · obtain ⟨_, _, rfl⟩ := Option.map_eq_some_iff.mp hr
      exact hns
    · exact ht r c hr
  cases hm with
  | declares hd => exact hmodify ht ((hget _ ht).declares hd)
  | takes source delivery => exact hmodify ht (hget _ ht).merge
  | @begins ρ ms es rs ns file hns =>
    intro r c hr
    have hr : (ρ.push ns)[r]? = some c := hr
    rw [Array.getElem?_push] at hr
    split at hr
    · cases hr
      exact Namespace.tidy_of_nil hns
    · exact ht r c hr
  | ends | stops | opens | rescopes _ | resumes _ _ => exact ht

theorem Tidy.moves (ht : h.Tidy) (hm : Relation.ReflTransGen Moves h h') : h'.Tidy := by
  induction hm with
  | refl => exact ht
  | tail _ hs ih => exact hs.tidy ih

end Holding

namespace Moment

/-- The root has what the root of the module `file` has under a name at a path: because it is that root, or
because an import has handed it over from a root that has it, and as long as nothing takes its place. -/
inductive Brings (host : Host) (file : String) (path : List String) (name : String) :
    Moment → Nat → Prop where
  | own {a root} : Occurs (· = host) False a → a.store.module? file = some root →
    Brings host file path name a root
  | hands {a source target low} (delivery : Delivery) : Brings host file path name a source →
    delivery.merge (a.store.root source) low = (a.store.root target, none) →
    delivery.Takes (path ++ [name]) → ((a.store.root source).publicAt? path).isSome →
    Brings host file path name a target
  | keeps {a b root} : Brings host file path name a root → Next (· = host) False a b →
    (b.store.root root).valueAt? path name = (a.store.root root).valueAt? path name →
    (b.store.root root).typeAt? path name = (a.store.root root).typeAt? path name →
    Brings host file path name b root

/-- That types keep their identity, as it shows at one moment. -/
structure KeepsTypes (host : Host) (a : Moment) : Prop where
  /-- An import hands over what it takes, from a module that is there -/
  imports : ∀ m m' line op k other delivery source file path name, a.now = .running m →
    m.frame.rest = .mk line op :: k → op.import? = some (other, delivery) →
    m.store.module? other = some source → m.step host = .running m' →
    Brings host file path name a source → delivery.Takes (path ++ [name]) →
    ((m.store.root source).publicAt? path).isSome →
    Brings host file path name ⟨.running m', a.spaces⟩ m.task.root
  /-- or, after waiting for it, from one that has come to its end. -/
  ends : ∀ m m' w ws, a.now = .running m → m.waiting = w :: ws → m.frame.rest = [] →
    m.task.frames.callers = [] → m.step host = .running m' →
    m'.store.module? m.task.module = some m.task.root ∧
      ∀ file path name, Brings host file path name ⟨.running m', a.spaces⟩ m.task.root →
        w.delivery.Takes (path ++ [name]) → ((m'.store.root m.task.root).publicAt? path).isSome →
        Brings host file path name ⟨.running m', a.spaces⟩ w.task.root
  /-- Whatever way a name has taken, it stands for the value and the type that its module has, -/
  same : ∀ file root path name b target, a.store.module? file = some root →
    Later (· = host) False a b ∨ Later (· = host) False b a → Brings host file path name b target →
    (∀ v, (a.store.root root).valueAt? path name = some v →
        (b.store.root target).findValue (path ++ [name]) = .ok v) ∧
      ∀ t, (a.store.root root).typeAt? path name = some t →
        (b.store.root target).findType (path ++ [name]) = .ok t
  /-- and if this is a case, a pattern with the name accepts all that the case builds. -/
  accepts : ∀ file root path name b target c, a.store.module? file = some root →
    Later (· = host) False a b ∨ Later (· = host) False b a → Brings host file path name b target →
    (a.store.root root).typeAt? path name = some (.case c) → ∀ v fields, c.Builds v fields →
      (Shape.type (path ++ [name]) (List.replicate c.arity .any)).accepts
          (b.store.root target).findType v = .ok true ∧
        (∀ inners : List Shape, inners.length = c.arity →
          ((Shape.type (path ++ [name]) inners).accepts (b.store.root target).findType v = .ok true ↔
            acceptsAll (b.store.root target).findType inners fields = .ok true)) ∧
        ∀ os, decompose (.case c) c.arity (v :: os) = .ok (fields ++ os)

end Moment

section

variable {m m' : Machine} {source : Nat} {delivery : Delivery}

theorem Machine.deliver_merge (hr : m.task.root < m.store.roots.size) (hne : source ≠ m.task.root)
    (hd : m.deliver source delivery = .running m') :
    delivery.merge (m'.store.root source) (m.store.root m.task.root) =
      (m'.store.root m.task.root, none) := by
  obtain ⟨_, he, hroot, hother⟩ := delivery.merge_replaces _ _ m source rfl rfl hr
  rw [hd] at he
  cases hf : (delivery.merge (m.store.root source) (m.store.root m.task.root)).2 with
  | some f =>
    rw [hf] at he
    cases he
  | none =>
    rw [hf] at he
    cases he
    rw [hother source hne, hroot, ← hf]

end

namespace Moment

variable {allowed : Host → Prop} {texts : Prop} {host : Host} {a b : Moment} {file name : String}
  {path : List String} {root : Nat}

theorem Occurs.tidy (ho : Occurs allowed texts a) (r : Nat) : (a.store.root r).Tidy := by
  obtain ⟨console, hl⟩ := ho
  have hstart : (start console).holding.Tidy := nofun
  have ht : a.holding.Tidy := hstart.moves hl.holding
  unfold Holding.Tidy at ht
  rw [holding_roots] at ht
  rw [Store.root, Array.getD_eq_getD_getElem?]
  cases hr : a.store.roots[r]? with
  | none => exact Namespace.tidy_of_nil rfl
  | some ns => exact ht r ns hr

/-- What is brought is what the module itself has. -/
theorem Brings.shows (ha : host.Acyclic) (hb : Brings host file path name a root) :
    Occurs (· = host) False a ∧ ∃ r, a.store.module? file = some r ∧
      (∀ v, (a.store.root r).valueAt? path name = some v →
        (a.store.root root).valueAt? path name = some v) ∧
      ∀ t, (a.store.root r).typeAt? path name = some t →
        (a.store.root root).typeAt? path name = some t := by
  -- On the way that the name has taken. What is handed over is shown by the merge; the root of the
  -- module itself does not change.
  induction hb with
  | @own a root ho hf => exact ⟨ho, root, hf, fun _ hv => hv, fun _ ht => ht⟩
  | @hands a source target low delivery _ hm ht hp ih =>
    obtain ⟨ho, r, hf, hvalue, htype⟩ := ih
    have hfault : (delivery.merge (a.store.root source) low).2 = none := by rw [hm]
    obtain ⟨hvalues, htypes⟩ := Delivery.merge_brings (ho.tidy source) hfault ht hp
    rw [hm] at hvalues htypes
    exact ⟨ho, r, hf, fun v hv => hvalues v (hvalue v hv), fun t ht => htypes t (htype t ht)⟩
  | @keeps a b root _ hn hv ht ih =>
    obtain ⟨ho, r, hf, hvalue, htype⟩ := ih
    have hl : Later (· = host) False a b := .single hn
    have hroot : b.store.root r = a.store.root r := ho.root_eq hl hf
    refine ⟨ho.later hl, r, ho.module_later ha hl hf, ?_, ?_⟩
    · rw [hroot, hv]
      exact hvalue
    · rw [hroot, ht]
      exact htype

theorem Brings.at_any (ha : host.Acyclic) (ho : Occurs (· = host) False a)
    (hf : a.store.module? file = some root) (hab : Later (· = host) False a b ∨ Later (· = host) False b a)
    {target : Nat} (hb : Brings host file path name b target) :
    (∀ v, (a.store.root root).valueAt? path name = some v →
        (b.store.root target).valueAt? path name = some v) ∧
      ∀ t, (a.store.root root).typeAt? path name = some t →
        (b.store.root target).typeAt? path name = some t := by
  obtain ⟨hob, r, hr, hvalue, htype⟩ := hb.shows ha
  have hsame : b.store.module? file = some root ∧ b.store.root root = a.store.root root := by
    rcases hab with hl | hl
    · exact ⟨ho.module_later ha hl hf, ho.root_eq hl hf⟩
    -- A module is loaded once, so the later root is the earlier one.
    · have he : r = root := Option.some.inj ((hob.module_later ha hl hr).symm.trans hf)
      subst he
      exact ⟨hr, (hob.root_eq hl hr).symm⟩
  obtain ⟨hm, hroot⟩ := hsame
  obtain rfl : r = root := Option.some.inj (hr.symm.trans hm)
  rw [hroot] at hvalue htype
  exact ⟨hvalue, htype⟩

end Moment

section

variable {ns : Namespace} {path : List String} {name : String} {c : Case} {v : Value} {t : DataType}
  {fields os : List Value} {find : List String → Except Fault DataType} {inners : List Shape}

theorem Namespace.findType_of_typeAt? (h : ns.typeAt? path name = some t) :
    ns.findType (path ++ [name]) = .ok t := by
  unfold findType
  rw [List.getLast?_concat, List.dropLast_concat, Option.bind_some, h]

theorem Namespace.findValue_of_valueAt? (h : ns.valueAt? path name = some v) :
    ns.findValue (path ++ [name]) = .ok v := by
  unfold findValue
  rw [List.getLast?_concat, List.dropLast_concat, Option.bind_some, h]

theorem Case.Builds.length (hb : c.Builds v fields) : fields.length = c.arity := by
  cases hb with
  | constant hc =>
    unfold value at hc
    split at hc
    · rename_i ha
      exact ha.symm
    · cases hc
  | record hf =>
    unfold value at hf
    split at hf
    · cases hf
    · rw [applyFull] at hf
      split at hf
      · rename_i ht
        cases hf
        exact (takeOperands_eq_some ht).2
      · cases hf

theorem Case.Builds.accepts (hb : c.Builds v fields) (hf : find path = .ok (.case c))
    (hi : inners.length = c.arity) :
    (Shape.type path inners).accepts find v = .ok true ↔ acceptsAll find inners fields = .ok true := by
  have hl := hb.length
  cases hb with
  | constant _ =>
    have hnil : inners = [] := List.eq_nil_of_length_eq_zero (hi.trans hl.symm)
    subst hnil
    rw [accepts_case_constant hf, beq_self_eq_true]
    exact ⟨fun _ => rfl, fun _ => rfl⟩
  | record _ =>
    rw [accepts_case_record hf]
    exact ⟨fun h => h.2.2, fun h => ⟨rfl, hi.trans hl.symm, h⟩⟩

theorem Case.Builds.decompose (hb : c.Builds v fields) :
    MatchLang.decompose (.case c) c.arity (v :: os) = .ok (fields ++ os) := by
  cases hb with
  | constant _ => simp [MatchLang.decompose]
  | record _ => simp [MatchLang.decompose]

theorem acceptsAll_any {n : Nat} :
    acceptsAll find (List.replicate n .any) fields = .ok true := by
  induction n generalizing fields with
  | zero => rfl
  | succ n ih =>
    cases fields with
    | nil => rfl
    | cons v vs => exact acceptsAll_cons.mpr ⟨rfl, ih⟩

end

namespace Moment

section

variable {host : Host} {a : Moment} {m m' : Machine} {file name other : String} {path : List String}
  {source line : Nat} {op : Op} {k : List Instr} {delivery : Delivery} {w : Suspended}
  {ws : List Suspended} {spaces : List Workspace}

theorem Occurs.root_lt (ho : Occurs (· = host) False ⟨.running m, spaces⟩) :
    m.task.root < m.store.roots.size :=
  ho.apart.runningIn m.task.owner List.mem_cons_self

theorem Brings.imports (hb : Brings host file path name ⟨.running m, spaces⟩ source)
    (ho : Occurs (· = host) False ⟨.running m, spaces⟩) (hr : m.frame.rest = .mk line op :: k)
    (hi : op.import? = some (other, delivery)) (hf : m.store.module? other = some source)
    (hs : m.step host = .running m') (ht : delivery.Takes (path ++ [name]))
    (hp : ((m.store.root source).publicAt? path).isSome) :
    Brings host file path name ⟨.running m', spaces⟩ m.task.root := by
  have hn : Next (· = host) False ⟨.running m, spaces⟩ ⟨.running m', spaces⟩ := hs ▸ .steps rfl
  have hroot : m'.store.root source = m.store.root source := ho.root_eq (.single hn) hf
  have hfile : Table.get? (Moment.holding ⟨.running m, spaces⟩).modules other = some source := hf
  have hne : source ≠ m.task.root := by
    rintro rfl
    exact (ho.apart.modules other _ hfile).1 List.mem_cons_self
  have hd : (m.resume m.store m.operands line k).deliver source delivery = .running m' := by
    rw [step_eq_act hr, Op.action_import hi] at hs
    have hload : (m.resume m.store m.operands line k).load host other delivery = .running m' := hs
    have hcached : (m.resume m.store m.operands line k).store.module? other = some source := hf
    rw [Machine.load_cached hcached] at hload
    exact hload
  have hm : delivery.merge (m'.store.root source) (m.store.root m.task.root) =
      (m'.store.root m.task.root, none) :=
    Machine.deliver_merge (m := m.resume m.store m.operands line k) ho.root_lt hne hd
  have hkept : Brings host file path name ⟨.running m', spaces⟩ source :=
    hb.keeps hn (congrArg (·.valueAt? path name) hroot) (congrArg (·.typeAt? path name) hroot)
  have hpub : ((m'.store.root source).publicAt? path).isSome := hroot ▸ hp
  exact hkept.hands delivery hm ht hpub

theorem Occurs.ends (ho : Occurs (· = host) False ⟨.running m, spaces⟩) (hw : m.waiting = w :: ws)
    (hr : m.frame.rest = []) (hc : m.task.frames.callers = []) (hs : m.step host = .running m') :
    m'.store.module? m.task.module = some m.task.root ∧
      ∀ file path name, Brings host file path name ⟨.running m', spaces⟩ m.task.root →
        w.delivery.Takes (path ++ [name]) → ((m'.store.root m.task.root).publicAt? path).isSome →
        Brings host file path name ⟨.running m', spaces⟩ w.task.root := by
  have hd : (m.settled w ws).deliver m.task.root w.delivery = .running m' := by
    rw [← Machine.finish_cons hw, ← Machine.step_nil hr hc]
    exact hs
  have hrun := ho.apart.running
  have hin := ho.apart.runningIn
  have howners : (Moment.holding ⟨.running m, spaces⟩).running =
      m.task.owner :: w.task.owner :: ws.map (·.task.owner) := by
    show m.task.owner :: m.waiting.map (·.task.owner) = _
    rw [hw]
    rfl
  rw [howners] at hrun hin
  have hne : m.task.root ≠ w.task.root := fun he =>
    (List.nodup_cons.mp hrun).1 (List.mem_cons.mpr (.inl he))
  have hlt : w.task.root < m.store.roots.size :=
    hin w.task.owner (List.mem_cons_of_mem _ List.mem_cons_self)
  have hm := Machine.deliver_merge hlt hne hd
  refine ⟨?_, fun file path name hb ht hp => hb.hands w.delivery hm ht hp⟩
  have hmodules : m'.store.modules = (m.settled w ws).store.modules := by
    have hkeep : ((m.settled w ws).deliver m.task.root w.delivery).store.modules =
        (m.settled w ws).store.modules := Machine.deliver_modules
    rw [hd] at hkeep
    exact hkeep
  rw [Store.module?, hmodules]
  exact (Table.get?_set ..).trans (if_pos rfl)

theorem Occurs.keepsTypes (ha : host.Acyclic) (ho : Occurs (· = host) False a) :
    a.KeepsTypes host := by
  have hsame : ∀ file root path name b target, a.store.module? file = some root →
      Later (· = host) False a b ∨ Later (· = host) False b a → Brings host file path name b target →
      (∀ v, (a.store.root root).valueAt? path name = some v →
          (b.store.root target).findValue (path ++ [name]) = .ok v) ∧
        ∀ t, (a.store.root root).typeAt? path name = some t →
          (b.store.root target).findType (path ++ [name]) = .ok t := by
    intro file root path name b target hf hab hb
    obtain ⟨hvalue, htype⟩ := hb.at_any ha ho hf hab
    exact ⟨fun v hv => Namespace.findValue_of_valueAt? (hvalue v hv),
      fun t ht => Namespace.findType_of_typeAt? (htype t ht)⟩
  refine ⟨?_, ?_, hsame, ?_⟩
  · intro m m' line op k other delivery source file path name hm hr hi hf hs hb ht hp
    obtain ⟨t, spaces⟩ := a
    cases hm
    exact hb.imports ho hr hi hf hs ht hp
  · intro m m' w ws hm hw hr hc hs
    obtain ⟨t, spaces⟩ := a
    cases hm
    exact ho.ends hw hr hc hs
  · intro file root path name b target c hf hab hb hc v fields hv
    have hfind : (b.store.root target).findType (path ++ [name]) = .ok (.case c) :=
      (hsame file root path name b target hf hab hb).2 _ hc
    have haccepts : ∀ inners : List Shape, inners.length = c.arity →
        ((Shape.type (path ++ [name]) inners).accepts (b.store.root target).findType v = .ok true ↔
          acceptsAll (b.store.root target).findType inners fields = .ok true) :=
      fun inners hi => hv.accepts hfind hi
    exact ⟨(haccepts _ List.length_replicate).mpr acceptsAll_any, haccepts, fun os => hv.decompose⟩

end

end Moment

/-- Where imports are without circles, each module is run once, at whatever moment of a session it is first
asked for, and a type keeps its identity on all ways on which modules hand it on. Loads nest, but no
module is begun while it is being loaded already; so when it is remembered nothing is replaced, its
root stays as it is, and what others have of it is the same wherever it comes from. -/
theorem modules_are_run_once {host : Host} {a : Moment} (ha : host.Acyclic)
    (ho : Moment.Occurs (· = host) False a) : a.LoadsOnce host ∧ a.KeepsTypes host :=
  ⟨ho.loadsOnce ha, ho.keepsTypes ha⟩

open Moment

/-- A file with a type, and two that take it from there. -/
def sharedHost : Host where
  appRoot := ""
  withPrelude := false
  callLimit := some 10
  read file :=
    if file = "pair" then .ok "type Pair = Pair x y"
    else if file = "whole" then .ok "import \"pair\""
    else if file = "entry" then .ok "import Pair from \"pair\""
    else .error .missing

theorem sharedHost_imports {f g : String} (h : sharedHost.Imports f g) : f ≠ "pair" ∧ g = "pair" := by
  obtain ⟨source, p, hs, hr, hg⟩ := h
  have hread : ∀ {text : String} {files : List String},
      (Program.read text).toOption.map (·.files) = some files → source = text → p.files = files := by
    rintro text files ht rfl
    rw [hr] at ht
    exact Option.some.inj ht
  have hpair : (Program.read "type Pair = Pair x y").toOption.map (·.files) = some [] := by
    decide +kernel
  have hwhole : (Program.read "import \"pair\"").toOption.map (·.files) = some ["pair"] := by
    decide +kernel
  have hentry : (Program.read "import Pair from \"pair\"").toOption.map (·.files) = some ["pair"] := by
    decide +kernel
  have hpath : joinPath sharedHost.appRoot f = f := by
    have hdir : sharedHost.appRoot.isEmpty = true := rfl
    unfold joinPath
    rw [hdir, Bool.or_true, if_pos rfl]
  unfold Host.Supplies at hs
  split at hs
  · subst hs
    rw [prelude_files hr] at hg
    cases hg
  · rw [hpath] at hs
    simp only [sharedHost] at hs
    split at hs
    · rw [hread hpair (Except.ok.inj hs).symm] at hg
      cases hg
    · rename_i hne
      refine ⟨hne, ?_⟩
      split at hs
      · rw [hread hwhole (Except.ok.inj hs).symm] at hg
        exact List.mem_singleton.mp hg
      · split at hs
        · rw [hread hentry (Except.ok.inj hs).symm] at hg
          exact List.mem_singleton.mp hg
        · cases hs

theorem sharedHost_acyclic : sharedHost.Acyclic := by
  have hends : ∀ f g, Relation.TransGen sharedHost.Imports f g → f ≠ "pair" ∧ g = "pair" := by
    intro f g hp
    induction hp with
    | single h => exact sharedHost_imports h
    | tail _ h ih => exact ⟨ih.1, (sharedHost_imports h).2⟩
  intro f hf
  obtain ⟨hne, he⟩ := hends f f hf
  exact hne he

/-- The machine of a run that goes on. -/
def Transition.machine? : Transition → Option Machine
  | .running m => some m
  | .finished _ _ => none
  | .raised _ _ => none

/-- What a module imports before anything else. -/
def Machine.firstImport? (m : Machine) : Option (String × Delivery) :=
  m.frame.rest.head?.bind (·.op.import?)

theorem Moment.Occurs.first_import {host : Host} {t : Transition} {spaces : List Workspace}
    {m m' : Machine} {file name : String} {path : List String} {source : Nat} {delivery : Delivery}
    (ho : Occurs (· = host) False ⟨t, spaces⟩) (hf : t.store.module? file = some source)
    (hm : t.machine? = some m) (hi : m.firstImport? = some (file, delivery))
    (hs : (m.step host).machine? = some m') (ht : delivery.Takes (path ++ [name]))
    (hp : ((t.store.root source).publicAt? path).isSome) :
    Later (· = host) False ⟨t, spaces⟩ ⟨.running m', spaces⟩ ∧
      Brings host file path name ⟨.running m', spaces⟩ m.task.root := by
  have hrunning : ∀ {t : Transition} {m : Machine}, t.machine? = some m → t = .running m := by
    intro t m h
    cases t with
    | running m₁ => exact congrArg Transition.running (Option.some.inj h)
    | finished _ _ | raised _ _ => cases h
  obtain rfl := hrunning hm
  have hs := hrunning hs
  obtain ⟨⟨line, op⟩, hhead, hop⟩ := Option.bind_eq_some_iff.mp hi
  obtain ⟨k, hr⟩ : ∃ k, m.frame.rest = .mk line op :: k := by
    obtain ⟨k, hk⟩ := List.head?_eq_some_iff.mp hhead
    exact ⟨k, hk⟩
  have hown : Brings host file path name ⟨.running m, spaces⟩ source := .own ho hf
  exact ⟨.single (hs ▸ .steps rfl), hown.imports ho hr hop hf hs ht hp⟩

/-- The type is imported as a part of the whole and by its name, and is the same both times. -/
theorem shared_pair_is_one_type :
    ∃ a b c k, Occurs (· = sharedHost) False a ∧ a.store.module? "pair" = some 1 ∧
      Later (· = sharedHost) False a b ∧ Brings sharedHost "pair" [] "Pair" b 3 ∧
      Later (· = sharedHost) False b c ∧ Brings sharedHost "pair" [] "Pair" c 5 ∧
      (b.store.root 3).findType ["Pair"] = .ok (.case k) ∧
      (c.store.root 5).findType ["Pair"] = .ok (.case k) ∧
      ∀ x y, (Shape.type ["Pair"] [.any, .any]).accepts (c.store.root 5).findType
        (.record k [x, y]) = .ok true := by
  let σ := (loadModule sharedHost 50 (.initial .deaf) "pair").2
  let whole := (idleMachine σ).load sharedHost "whole" .whole
  let entry (m : Machine) := (idleMachine m.store).load sharedHost "entry" .whole
  let after (t : Transition) : Option (Machine × Machine) :=
    t.machine?.bind fun m => (m.step sharedHost).machine?.map fun m' => (m, m')
  have hpair : σ.module? "pair" = some 1 := by decide +kernel
  have hcase : (σ.root 1).typeAt? [] "Pair" = some (.case ⟨5, "Pair", 2⟩) := by decide +kernel
  have hwhole : (after whole).map (fun r => (r.1.firstImport?, r.1.task.root)) =
      some (some ("pair", .whole), 3) := by decide +kernel
  have hentry : ((after whole).bind fun r => after (entry r.2)).map
      (fun r => (r.1.firstImport?, r.1.task.root)) = some (some ("pair", .entry ["Pair"]), 5) := by
    decide +kernel
  have hafter : ∀ {t : Transition} {m m' : Machine}, after t = some (m, m') →
      t.machine? = some m ∧ (m.step sharedHost).machine? = some m' := by
    intro t m m' h
    obtain ⟨n, hn, h⟩ := Option.bind_eq_some_iff.mp h
    obtain ⟨n', hn', he⟩ := Option.map_eq_some_iff.mp h
    cases he
    exact ⟨hn, hn'⟩
  obtain ⟨⟨m, m'⟩, hr, he⟩ := Option.map_eq_some_iff.mp hwhole
  rw [hr] at hentry
  obtain ⟨⟨n, n'⟩, hr', he'⟩ := Option.map_eq_some_iff.mp hentry
  obtain ⟨hi, hroot⟩ := Prod.mk.inj he
  obtain ⟨hi', hroot'⟩ := Prod.mk.inj he'
  obtain ⟨hm, hs⟩ := hafter hr
  obtain ⟨hn, hs'⟩ := hafter hr'
  obtain ⟨u, hl, hu⟩ := Transition.follow_later (· = sharedHost) False sharedHost rfl
    ((idleMachine (.initial .deaf)).load sharedHost "pair" .whole) [] 50
  have ha : Occurs (· = sharedHost) False ⟨u, []⟩ := ⟨.deaf, .head (.loads "pair" rfl) hl⟩
  have hσ : u.store = σ := hu.trans settleModule_store.symm
  have hfile : u.store.module? "pair" = some 1 := hσ ▸ hpair
  have hwhole : Later (· = sharedHost) False ⟨u, []⟩ ⟨whole, []⟩ := by
    have hload : Next (· = sharedHost) False ⟨u, []⟩
        ⟨(idleMachine u.store).load sharedHost "whole" .whole, []⟩ := .loads "whole" rfl
    rw [hσ] at hload
    exact .single hload
  have hpath : ∀ ns : Namespace, (ns.publicAt? []).isSome := fun _ => rfl
  have htake : Delivery.Takes ([] ++ ["Pair"]) .whole := trivial
  have htake' : Delivery.Takes ([] ++ ["Pair"]) (.entry ["Pair"]) := List.prefix_refl _
  have hfile₁ := ha.module_later sharedHost_acyclic hwhole hfile
  obtain ⟨hb, hbrings⟩ := (ha.later hwhole).first_import hfile₁ hm hi hs htake (hpath _)
  have hab := hwhole.trans hb
  have hload : Later (· = sharedHost) False ⟨.running m', []⟩ ⟨entry m', []⟩ :=
    .single (.loads "entry" rfl)
  have hfile₂ := ha.module_later sharedHost_acyclic (hab.trans hload) hfile
  obtain ⟨hc, hcbrings⟩ :=
    (ha.later (hab.trans hload)).first_import hfile₂ hn hi' hs' htake' (hpath _)
  have hac := hab.trans (hload.trans hc)
  rw [hroot] at hbrings
  rw [hroot'] at hcbrings
  have hcase : (u.store.root 1).typeAt? [] "Pair" = some (.case ⟨5, "Pair", 2⟩) := hσ ▸ hcase
  have hsame := (modules_are_run_once sharedHost_acyclic ha).2
  refine ⟨⟨u, []⟩, ⟨.running m', []⟩, ⟨.running n', []⟩, ⟨5, "Pair", 2⟩, ha, hfile, hab, hbrings,
    hload.trans hc, hcbrings, ?_, ?_, fun x y => ?_⟩
  · exact (hsame.same "pair" 1 [] "Pair" _ 3 hfile (.inl hab) hbrings).2 _ hcase
  · exact (hsame.same "pair" 1 [] "Pair" _ 5 hfile (.inl hac) hcbrings).2 _ hcase
  · exact (hsame.accepts "pair" 1 [] "Pair" _ 5 _ hfile (.inl hac) hcbrings hcase _ [x, y]
      (.record rfl)).1

end MatchLang
