import MatchLang.Proofs.Direct.Evaluation
import MatchLang.Proofs.Links.Resolution
import MatchLang.Proofs.Lowering.Code
import MatchLang.Proofs.Namespace.Like
import MatchLang.Proofs.Namespace.Recode
import MatchLang.Proofs.Pattern.Pieces
import MatchLang.Proofs.Store.Beyond
import MatchLang.Proofs.Store.Every

/-! Values of a run beside those of an evaluation. They differ in their numbers, and in that a function of an
evaluation has neither code nor scope; the functions of the run are such as a property admits. Whatever is done
with two such values comes to two such values, or to the same fault. -/

namespace MatchLang

/-- A value without the code and the scopes of its functions. -/
def Value.bare (v : Value) : Value :=
  v.recode (fun _ => .empty) fun _ => 0

def Closure.bare (c : Closure) : Closure :=
  c.recode (fun _ => .empty) fun _ => 0

def Namespace.bare (ns : Namespace) : Namespace :=
  ns.recode (fun _ => .empty) fun _ => 0

/-- A value of a run stands beside one of an evaluation. -/
structure Value.Stands (ρ : Numbering) (P : Closure → Prop) (v w : Value) : Prop where
  like : v.bare.Like ρ (fun _ => True) w
  every : v.Every P

abbrev AllStand (ρ : Numbering) (P : Closure → Prop) : List Value → List Value → Prop :=
  List.Forall₂ (Value.Stands ρ P)

structure Closure.Stands (ρ : Numbering) (P : Closure → Prop) (c d : Closure) : Prop where
  like : c.bare.Like ρ (fun _ => True) d
  made : P c

/-- A tree of names of a run stands beside one of an evaluation. -/
structure Namespace.Stands (ρ : Numbering) (P : Closure → Prop) (ns ns' : Namespace) : Prop where
  like : ns.bare.Like ρ (fun _ => True) ns'
  every : ns.Every P
  tidy : ns.Tidy

/-- A call with exactly the arguments that are wanted, beside another. The operands below stay. -/
inductive Application.Stands (ρ : Numbering) (P : Closure → Prop) (rest : List Value) :
    Application → Application → Prop where
  | enter {c d args args'} : c.Stands ρ P d → AllStand ρ P args args' → args.length = c.arity →
    Stands ρ P rest (.enter c (args ++ rest)) (.enter d args')
  | build {c d fields fields'} : (Value.record c fields).Stands ρ P (.record d fields') →
    Stands ρ P rest (.build c fields rest) (.build d fields' [])
  | compute {args args'} (f : Native) : AllStand ρ P args args' →
    Stands ρ P rest (.compute f args rest) (.compute f args' [])

section

variable {ρ ρ' : Numbering} {P Q : Closure → Prop} {v w : Value} {vs ws os os' rest : List Value}
  {n n' parts : Nat} {find find' : List String → Except Fault DataType} {t t' : DataType}

namespace Value.Stands

theorem mono (h : v.Stands ρ P w) (hρ : ∀ i j, ρ i j → ρ' i j) (hp : ∀ c, P c → Q c) : v.Stands ρ' Q w :=
  ⟨Value.Like.mono hρ _ h.like, h.every.mono hp⟩

theorem number (x : Float) : (Value.number x).Stands ρ P (.number x) :=
  ⟨.number x, trivial⟩

theorem text (s : String) : (Value.text s).Stands ρ P (.text s) :=
  ⟨.text s, trivial⟩

theorem display_eq (h : v.Stands ρ P w) : v.display = w.display := by
  rw [← h.like.display_eq, bare, display_recode]

theorem arity?_eq (h : v.Stands ρ P w) : v.arity? = w.arity? := by
  rw [← h.like.arity?_eq, bare, arity?_recode]

theorem typeName_eq (h : v.Stands ρ P w) : v.typeName = w.typeName := by
  rw [← h.like.typeName_eq, bare, typeName_recode]

theorem admits_eq (hf : ρ.Fits n n') (ht : t.Like ρ t') (h : v.Stands ρ P w) :
    t.admits v = t'.admits w := by
  rw [← h.like.admits_eq hf ht, bare, DataType.admits_recode]

end Value.Stands

theorem AllStand.mono (h : AllStand ρ P vs ws) (hρ : ∀ i j, ρ i j → ρ' i j) (hp : ∀ c, P c → Q c) :
    AllStand ρ' Q vs ws :=
  h.imp fun _ _ hv => hv.mono hρ hp

theorem allStand_iff :
    AllStand ρ P vs ws ↔ AllLike ρ (fun _ => True) (vs.map Value.bare) ws ∧ EveryValue P vs := by
  constructor
  · intro h
    induction h with
    | nil => exact ⟨.nil, trivial⟩
    | cons hv _ ih => exact ⟨.cons hv.like ih.1, hv.every, ih.2⟩
  · rintro ⟨h, he⟩
    induction vs generalizing ws with
    | nil =>
      cases h
      exact .nil
    | cons v vs ih =>
      obtain ⟨w, ws, hv, hvs, rfl⟩ := List.forall₂_cons_left_iff.mp h
      exact .cons ⟨hv, he.1⟩ (ih hvs he.2)

theorem Value.Stands.function {c d : Closure} (h : c.Stands ρ P d) : (Value.function c).Stands ρ P (.function d) :=
  ⟨.function h.like, h.made⟩

theorem Value.Stands.partialCall {i j k : Nat} (hid : ρ i j) (h : v.Stands ρ P w) (hs : AllStand ρ P vs ws)
    (hk : v.arity? = some k) (hlt : vs.length < k) : (Value.partialCall i v vs).Stands ρ P (.partialCall j w ws) := by
  obtain ⟨hlike, hevery⟩ := allStand_iff.mp hs
  refine ⟨?_, h.every, hevery⟩
  rw [bare, recode, valuesRecode_eq]
  exact .partialCall hid h.like hlike ((arity?_recode v).trans hk) (by rwa [List.length_map])

/-- What is related after a change on the one side is related before it. -/
theorem Concord.of_map {α β γ : Type} {r : γ → β → Prop} {s : α → β → Prop} {x : Except Fault α}
    {y : Except Fault β} {g : α → γ} (h : Concord r (x.map g) y)
    (hs : ∀ a b, x = .ok a → r (g a) b → s a b) : Concord s x y := by
  cases x with
  | error f =>
    obtain ⟨_, _, hx, _⟩ | ⟨e, hx, rfl⟩ := h.split
    · cases hx
    · cases hx
      exact .error f
  | ok a =>
    obtain ⟨_, b, hx, rfl, hab⟩ | ⟨e, hx, _⟩ := h.split
    · cases hx
      exact .ok (hs a b rfl hab)
    · cases hx

/-- A test of a value. -/
theorem Shape.accepts_stands (hf : ρ.Fits n n') (ht : TypesAgree ρ find find') (h : v.Stands ρ P w) (s : Shape) :
    s.accepts find v = s.accepts find' w := by
  rw [← s.accepts_eq hf ht h.like, Value.bare, s.accepts_recode]

/-- The parts of a value. -/
theorem takeApart_stands (hf : ρ.Fits n n') (ht : TypesAgree ρ find find') (h : v.Stands ρ P w)
    (path : List String) : Concord (AllStand ρ P) (takeApart find path parts v) (takeApart find' path parts w) := by
  unfold takeApart
  obtain ⟨t, t', ht, ht', hlike⟩ | ⟨f, ht, ht'⟩ := (ht path).split
  · rw [ht, ht']
    have hd : Concord _ (decompose t parts [_]) (decompose t' parts [_]) :=
      decompose_agree hf hlike (.cons h.like .nil)
    have hr := decompose_recode (f := fun _ => Code.empty) (u := fun _ => 0) t parts [v]
    rw [List.map_singleton] at hr
    rw [Value.bare, hr] at hd
    exact hd.of_map fun vs ws he hlike => allStand_iff.mpr
      ⟨hlike, decompose_every (everyValue_iff.mpr fun _ hv => List.mem_singleton.mp hv ▸ h.every) he⟩
  · rw [ht, ht']
    exact .error f

theorem Native.run_stands {f : Native} (hf : ρ.Fits n n') (h : AllStand ρ P vs ws) (console : Console) :
    Concord (fun r r' => r.1.Stands ρ P r'.1 ∧ r.2 = r'.2) (f.run vs console) (f.run ws console) := by
  have hr := run_agree (f := f) hf (allStand_iff.mp h).1 console
  have hb := run_recode (f := fun _ => Code.empty) (u := fun _ => 0) f vs console
  have hmap : vs.map Value.bare = vs.map (·.recode (fun _ => Code.empty) fun _ => 0) := rfl
  rw [hmap, hb] at hr
  exact hr.of_map fun _ _ he hlike => ⟨⟨hlike.1, run_every he⟩, hlike.2⟩

/-- A call with as many arguments as are wanted is applied to these, and to those the callee has kept. -/
theorem applyFull_stands (rest : List Value) : {v w : Value} → {os os' : List Value} → v.Stands ρ P w →
    AllStand ρ P os os' → v.arity? = some os.length →
      (applyFull v (os ++ rest)).Stands ρ P rest (applyFull w os')
  | .function c, w, os, os', ⟨hl, he⟩, ho, ha => by
    cases hl with
    | function hc => exact .enter ⟨hc, he⟩ ho (Option.some.inj ha).symm
  | .partialCall _ callee args, w, os, os', ⟨hl, he⟩, ho, ha => by
    rw [Value.bare, Value.recode, valuesRecode_eq] at hl
    cases hl with
    | @partialCall _ _ _ g _ ws total _ hf hvs hn hlt =>
      rw [Value.arity?_recode] at hn
      rw [List.length_map] at hlt
      rw [Value.arity?, hn, Option.map_some] at ha
      rw [applyFull, applyFull, ← List.append_assoc]
      have hargs : AllStand ρ P args ws := allStand_iff.mpr ⟨hvs, he.2⟩
      have hlen : total - args.length = os.length := Option.some.inj ha
      have htotal : callee.arity? = some (args ++ os).length := by
        rw [hn, List.length_append]
        exact congrArg some (by omega)
      exact applyFull_stands rest ⟨hf, he.1⟩ (List.rel_append hargs ho) htotal
  | .constructor c, w, os, os', ⟨hl, he⟩, ho, ha => by
    cases hl with
    | @constructor _ d hc hpos =>
      have hlen : os.length = c.arity := (Option.some.inj ha).symm
      have hlen' : os'.length = d.arity := ho.length_eq.symm.trans (hlen.trans hc.arity)
      have htake' : takeOperands d.arity os' = some (os', []) := by
        rw [← hlen', ← List.append_nil os']
        simpa using takeOperands_append os' []
      rw [applyFull, applyFull, ← hlen, takeOperands_append, htake']
      obtain ⟨hlike, hevery⟩ := allStand_iff.mp ho
      refine .build ⟨?_, hevery⟩
      rw [Value.bare, Value.recode, valuesRecode_eq]
      exact .record hc hpos (by rw [List.length_map, hlen]) hlike
  | .native f, w, os, os', ⟨hl, he⟩, ho, ha => by
    cases hl with
    | native =>
      have hlen : os.length = f.arity := (Option.some.inj ha).symm
      have hlen' : os'.length = f.arity := ho.length_eq.symm.trans hlen
      have htake' : takeOperands f.arity os' = some (os', []) := by
        rw [← hlen', ← List.append_nil os']
        simpa using takeOperands_append os' []
      rw [applyFull, applyFull, htake', ← hlen, takeOperands_append]
      exact .compute f ho
  | .number _, _, _, _, _, _, ha | .text _, _, _, _, _, _, ha | .record _ _, _, _, _, _, _, ha
  | .constant _, _, _, _, _, _, ha => by cases ha
termination_by structural v => v

end

namespace Namespace.Stands

variable {ρ ρ' : Numbering} {P Q : Closure → Prop} {ns ns' source source' : Namespace} {v w : Value}
  {n n' : Nat} {path : List String} {name : String}

theorem mono (h : ns.Stands ρ P ns') (hρ : ∀ i j, ρ i j → ρ' i j) (hp : ∀ c, P c → Q c) :
    ns.Stands ρ' Q ns' :=
  ⟨h.like.mono hρ, h.every.mono hp, h.tidy⟩

theorem findValue (h : ns.Stands ρ P ns') (path : List String) :
    Concord (Value.Stands ρ P) (ns.findValue path) (ns'.findValue path) := by
  have hl := h.like.findValue path
  rw [bare, findValue_recode] at hl
  exact hl.of_map fun _ _ he hlike => ⟨hlike, h.every.findValue he⟩

theorem findType (h : ns.Stands ρ P ns') : TypesAgree ρ ns.findType ns'.findType := by
  have hl := h.like.findType
  rwa [bare, findType_recode] at hl

/-- A change of the root that is made on both sides. -/
theorem changed {r : Except Fault Namespace} {r' : Except Fault Namespace} (h : ns.Stands ρ P ns')
    (hr : Concord (Namespace.Like ρ fun _ => True) (r.map Namespace.bare) r')
    (hd : ∀ after, r = .ok after → ns.Declares after ∧ after.Every P) :
    Concord (Namespace.Stands ρ P) r r' :=
  hr.of_map fun after _ he hlike => ⟨hlike, (hd after he).2, h.tidy.declares (hd after he).1⟩

theorem publishIn (h : ns.Stands ρ P ns') (hv : v.Stands ρ P w) :
    Concord (Namespace.Stands ρ P) (Machine.publishIn ns path name v) (Machine.publishIn ns' path name w) := by
  have hr := publishIn_agree h.like path name hv.like
  have hb : Machine.publishIn ns.bare path name v.bare = (Machine.publishIn ns path name v).map bare := by
    unfold Machine.publishIn
    rw [bare, find_recode]
    cases ns.find path with
    | error f => rfl
    | ok c => exact congrArg Except.ok (updateAt_recode (fun c => setValue_recode c name v) path ns)
  rw [hb] at hr
  exact h.changed hr fun after ha => ⟨publishIn_declares ha, h.every.publishIn hv.every ha⟩

theorem make (h : ns.Stands ρ P ns') (path : List String) (isPublic : Bool) :
    Concord (Namespace.Stands ρ P) (ns.make path isPublic) (ns'.make path isPublic) := by
  have hr := h.like.make path isPublic
  rw [bare, make_recode] at hr
  exact h.changed hr fun after ha => ⟨.space ha, h.every.make ha⟩

theorem defineIn {ks ks' : List Case} (h : ns.Stands ρ P ns') (hk : List.Forall₂ (Case.Like ρ) ks ks') :
    Concord (Namespace.Stands ρ P) (Machine.defineIn ns path name ks) (Machine.defineIn ns' path name ks') := by
  have hr := defineIn_agree h.like path name hk
  have hb : Machine.defineIn ns.bare path name ks = (Machine.defineIn ns path name ks).map bare := by
    unfold Machine.defineIn
    rw [bare, find_recode]
    cases ns.find path with
    | error f => rfl
    | ok c => exact congrArg Except.ok (updateAt_recode (fun c => addFamily_recode c name ks) path ns)
  rw [hb] at hr
  exact h.changed hr fun after ha => ⟨defineIn_declares ha, h.every.defineIn ha⟩

/-- What an import takes. -/
theorem merge (hs : source.Stands ρ P source') (h : ns.Stands ρ P ns') (d : Delivery) :
    (d.merge source ns).1.Stands ρ P (d.merge source' ns').1 ∧
      (d.merge source ns).2 = (d.merge source' ns').2 := by
  have hm : (d.merge source ns).1.bare.Like ρ (fun _ => True) (d.merge source' ns').1 ∧
      (d.merge source ns).2 = (d.merge source' ns').2 := by
    cases d with
    | whole =>
      have hl := hs.like.overlay h.like
      rw [bare, bare, overlay_recode] at hl
      exact ⟨hl, rfl⟩
    | entry path =>
      have hl := Namespace.Like.importFrom hs.like h.like [] path
      have hb := importEntry_recode (f := fun _ => Code.empty) (u := fun _ => 0) source ns path
      unfold importEntry at hb
      rw [bare, bare, hb] at hl
      exact hl
  exact ⟨⟨hm.1, hs.every.merge h.every hs.tidy, h.tidy.merge⟩, hm.2⟩

theorem seed (hf : ρ.Fits n n') :
    (builtins.seed (.empty true)).Stands ρ P (builtins.seed (.empty true)) := by
  have hl := Namespace.seed_like (A := fun _ => True) hf
  refine ⟨?_, seed_every, tidy_of_nil ?_⟩
  · have hb := seed_recode (f := fun _ => Code.empty) (u := fun _ => 0) builtins (.empty true)
    rw [empty_recode] at hb
    rw [bare, ← hb]
    exact hl
  · rfl

theorem empty : (Namespace.empty true).Stands ρ P (.empty true) := by
  refine ⟨?_, empty_every, tidy_of_nil rfl⟩
  rw [bare, empty_recode]
  exact Namespace.empty_like true

end Namespace.Stands

/-! A run beside an evaluation. The names of a unit have slots in the scope that the unit runs in, and each of them has
a cell of its own; so the cells that have been made are places in the scopes. Which slots are used in a scope is known
before any of them is: no scope uses a slot that one around it uses. -/

/-- A store and a world; which numbers stand for which; for every cell the scope and the slot that it is for; which
slots are for names in which scope, and which are for the items of lists. -/
structure Twin where
  store : Store
  world : World
  numbers : Numbering
  place : Nat → Nat × Nat
  own : Nat → Nat → Prop
  hidden : Nat → Prop

namespace Twin

section

variable (t : Twin)

/-- The slot of a name in some groups is that of its cell, in a scope around the given one. -/
def Reads (gs : List Group) (env : Env) (s : Nat) : Prop :=
  ∀ name, Both (fun (slot : Slot) cell => slot.name = name ∧ cell < t.world.cells.size ∧
    (t.place cell).2 = slot.id ∧ t.store.Outward s (t.place cell).1) (findSlot? gs name) (env.lookup name)

/-- The numbers from `a` up to `b` are for names, but for none in the scope or in those around it. -/
structure Vacant (s a b : Nat) : Prop where
  bound : b ≤ t.store.nextSlot
  plain : ∀ n, a ≤ n → n < b → ¬ t.hidden n
  outer : ∀ n u, a ≤ n → n < b → t.store.Outward s u → ¬ t.own u n

/-- The code of a closure is that of a function, and finds the names around it. -/
structure Carries (c : Closure) (f : Lambda) : Prop where
  arity : c.arity = f.params.length
  scope : c.scope < t.store.scopes.size
  code : ∃ l own gs a b i j r, PatternsCode l none f.params c.line c.code.instrs r ∧
    BlockCode l f.body c.code true i j r [] ∧ FunctionLinks l f.params f.body own gs a b ∧
    t.Reads gs f.env c.scope ∧ t.Vacant c.scope a b ∧ ∀ n, i ≤ n → n < j → t.hidden n

/-- A closure that has been made beside a function of the world. -/
def Made (c : Closure) : Prop :=
  ∃ id f, t.numbers c.id id ∧ t.world.lambdas.lookup id = some f ∧ t.Carries c f

abbrev Alike : Value → Value → Prop :=
  Value.Stands t.numbers t.Made

abbrev AllAlike : List Value → List Value → Prop :=
  AllStand t.numbers t.Made

/-- The numbers from `a` up to `b` are for names of the unit that runs in a scope, as `own` says, and of the functions
in it, and none of them has been used yet. -/
structure Clear (s : Nat) (own : Nat → Prop) (a b : Nat) : Prop where
  bound : b ≤ t.store.nextSlot
  plain : ∀ n, a ≤ n → n < b → ¬ t.hidden n
  mine : ∀ n, a ≤ n → n < b → (t.own s n ↔ own n)
  outer : ∀ n u, a ≤ n → n < b → t.store.Outward s u → u ≠ s → ¬ t.own u n
  fresh : ∀ cell < t.world.cells.size, (t.place cell).1 = s → a ≤ (t.place cell).2 → ¬ (t.place cell).2 < b

/-- The store and the world say the same. -/
structure Sound : Prop where
  fits : t.numbers.Fits t.store.nextIdentity t.world.nextIdentity
  lambdas : ∀ id f, t.world.lambdas.lookup id = some f → id < t.world.nextIdentity
  parents : ∀ s p, t.store.parent? s = some p → p < s
  cell : ∀ cell < t.world.cells.size,
    Both t.Alike (t.store.slot? (t.place cell).1 (t.place cell).2) (t.world.cell? cell)
  placed : ∀ cell < t.world.cells.size, t.own (t.place cell).1 (t.place cell).2
  apart : ∀ cell < t.world.cells.size, ∀ cell' < t.world.cells.size, t.place cell = t.place cell' → cell = cell'
  saved : ∀ s n v, t.store.slot? s n = some v → t.hidden n ∨ ∃ cell < t.world.cells.size, t.place cell = (s, n)
  owned : ∀ s n, t.own s n → s < t.store.scopes.size ∧ n < t.store.nextSlot ∧ ¬ t.hidden n
  items : ∀ n, t.hidden n → n < t.store.nextSlot
  nested : ∀ s u n, t.store.Outward s u → t.own s n → t.own u n → s = u
  size : t.store.roots.size = t.world.roots.size
  root : ∀ r, (t.store.root r).Stands t.numbers t.Made (t.world.root r)
  modules : t.store.modules = t.world.modules
  console : t.store.console = t.world.console

end

/-- What a later twin keeps of an earlier one, when in a scope only some slots may have been used in between. -/
structure Onto (s : Nat) (uses : Nat → Prop) (t t' : Twin) : Prop where
  numbers : ∀ i j, t.numbers i j → t'.numbers i j
  cells : t.world.cells.size ≤ t'.world.cells.size
  place : ∀ cell < t.world.cells.size, t'.place cell = t.place cell
  fresh : ∀ cell < t'.world.cells.size, t.world.cells.size ≤ cell →
    t.store.scopes.size ≤ (t'.place cell).1 ∨ (t'.place cell).1 = s ∧ uses (t'.place cell).2
  own : ∀ u n, u < t.store.scopes.size → n < t.store.nextSlot → (t'.own u n ↔ t.own u n)
  hidden : ∀ n, n < t.store.nextSlot → (t'.hidden n ↔ t.hidden n)
  scopes : t.store.scopes.size ≤ t'.store.scopes.size
  parents : ∀ u, u < t.store.scopes.size → t'.store.parent? u = t.store.parent? u
  kept : ∀ u n, u < t.store.scopes.size → n < t.store.nextSlot → t.hidden n → (u = s → ¬ uses n) →
    t'.store.slot? u n = t.store.slot? u n
  nextSlot : t.store.nextSlot ≤ t'.store.nextSlot
  lambdas : ∀ id f, t.world.lambdas.lookup id = some f → t'.world.lambdas.lookup id = some f
  roots : t.store.roots.size ≤ t'.store.roots.size

/-- Nothing has been used. -/
abbrev Unused : Nat → Prop := fun _ => False

namespace Onto

variable {s s' : Nat} {uses u : Nat → Prop} {t t' t'' : Twin}

theorem refl (s : Nat) (uses : Nat → Prop) (t : Twin) : t.Onto s uses t where
  numbers _ _ h := h
  cells := Nat.le_refl _
  place _ _ := rfl
  fresh _ h h' := absurd h (Nat.not_lt.mpr h')
  own _ _ _ _ := .rfl
  hidden _ _ := .rfl
  scopes := Nat.le_refl _
  parents _ _ := rfl
  kept _ _ _ _ _ _ := rfl
  nextSlot := Nat.le_refl _
  lambdas _ _ h := h
  roots := Nat.le_refl _

theorem mono (h : t.Onto s uses t') (hu : ∀ n, uses n → u n) : t.Onto s u t' :=
  { h with
    fresh := fun cell hc hc' => (h.fresh cell hc hc').imp_right fun ⟨h₁, h₂⟩ => ⟨h₁, hu _ h₂⟩
    kept := fun u n hu' hn hh hne => h.kept u n hu' hn hh fun heq hs => hne heq (hu n hs) }

/-- First something in a scope, and then something in the same scope or in one that was not there. -/
theorem trans_or (h : t.Onto s uses t') (h' : t'.Onto s' u t'')
    (hs : t.store.scopes.size ≤ s' ∨ s' = s ∧ ∀ n, u n → uses n) : t.Onto s uses t'' where
  numbers i j hij := h'.numbers i j (h.numbers i j hij)
  cells := Nat.le_trans h.cells h'.cells
  place cell hc := (h'.place cell (Nat.lt_of_lt_of_le hc h.cells)).trans (h.place cell hc)
  fresh cell hc hge := by
    rcases Nat.lt_or_ge cell t'.world.cells.size with hlt | hge'
    · rw [h'.place cell hlt]
      exact h.fresh cell hlt hge
    · rcases h'.fresh cell hc hge' with hn | ⟨heq, hn⟩
      · exact .inl (Nat.le_trans h.scopes hn)
      · rcases hs with hs | ⟨hs, hu⟩
        · exact .inl (heq ▸ hs)
        · exact .inr ⟨heq.trans hs, hu _ hn⟩
  own u n hu hn := (h'.own u n (Nat.lt_of_lt_of_le hu h.scopes) (Nat.lt_of_lt_of_le hn h.nextSlot)).trans (h.own u n hu hn)
  hidden n hn := (h'.hidden n (Nat.lt_of_lt_of_le hn h.nextSlot)).trans (h.hidden n hn)
  scopes := Nat.le_trans h.scopes h'.scopes
  parents u hu := (h'.parents u (Nat.lt_of_lt_of_le hu h.scopes)).trans (h.parents u hu)
  kept u n hu hn hh hne := by
    refine (h'.kept u n (Nat.lt_of_lt_of_le hu h.scopes) (Nat.lt_of_lt_of_le hn h.nextSlot)
      ((h.hidden n hn).mpr hh) fun heq hn' => ?_).trans (h.kept u n hu hn hh hne)
    rcases hs with hs | ⟨hs, hu'⟩
    · exact Nat.not_lt.mpr hs (heq ▸ hu)
    · exact hne (heq.trans hs) (hu' n hn')
  nextSlot := Nat.le_trans h.nextSlot h'.nextSlot
  lambdas id f hf := h'.lambdas id f (h.lambdas id f hf)
  roots := Nat.le_trans h.roots h'.roots

theorem trans (h : t.Onto s uses t') (h' : t'.Onto s uses t'') : t.Onto s uses t'' :=
  h.trans_or h' (.inr ⟨rfl, fun _ h => h⟩)

theorem outward (h : t.Onto s uses t') (ht : t.Sound) {u w : Nat} (hu : u < t.store.scopes.size) :
    t'.store.Outward u w ↔ t.store.Outward u w :=
  Store.Outward.iff_of_parents ht.parents h.parents hu

end Onto

section

variable {t t' : Twin} {s a b : Nat} {uses own : Nat → Prop} {gs : List Group} {env : Env} {c : Closure} {f : Lambda}
  {v w : Value} {vs ws : List Value}

theorem Reads.onto (h : t.Reads gs env s) (ht : t.Sound) (ho : t.Onto s' uses t') (hs : s < t.store.scopes.size) :
    t'.Reads gs env s := by
  intro name
  refine (h name).imp fun slot cell ⟨hname, hlt, hid, hout⟩ => ?_
  rw [← ho.place cell hlt] at hid hout
  exact ⟨hname, Nat.lt_of_lt_of_le hlt ho.cells, hid, (ho.outward ht hs).mpr hout⟩

theorem Vacant.onto (h : t.Vacant s a b) (ht : t.Sound) (ho : t.Onto s' uses t') (hs : s < t.store.scopes.size) :
    t'.Vacant s a b where
  bound := Nat.le_trans h.bound ho.nextSlot
  plain n ha hb := (ho.hidden n (Nat.lt_of_lt_of_le hb h.bound)).not.mpr (h.plain n ha hb)
  outer n u ha hb hout := by
    have hout' := (ho.outward ht hs).mp hout
    have hu := Nat.lt_of_le_of_lt (hout'.le ht.parents) hs
    exact (ho.own u n hu (Nat.lt_of_lt_of_le hb h.bound)).not.mpr (h.outer n u ha hb hout')

theorem Carries.onto (h : t.Carries c f) (ht : t.Sound) (ho : t.Onto s' uses t') : t'.Carries c f where
  arity := h.arity
  scope := Nat.lt_of_lt_of_le h.scope ho.scopes
  code := by
    obtain ⟨l, own, gs, a, b, i, j, r, hp, hb, hl, hr, hv, hi⟩ := h.code
    exact ⟨l, own, gs, a, b, i, j, r, hp, hb, hl, hr.onto ht ho h.scope, hv.onto ht ho h.scope,
      fun n hn hn' => (ho.hidden n (ht.items n (hi n hn hn'))).mpr (hi n hn hn')⟩

theorem Made.onto (h : t.Made c) (ht : t.Sound) (ho : t.Onto s' uses t') : t'.Made c := by
  obtain ⟨id, f, hid, hf, hc⟩ := h
  exact ⟨id, f, ho.numbers _ _ hid, ho.lambdas _ _ hf, hc.onto ht ho⟩

theorem Alike.onto (h : t.Alike v w) (ht : t.Sound) (ho : t.Onto s' uses t') : t'.Alike v w :=
  h.mono ho.numbers fun _ hc => hc.onto ht ho

theorem AllAlike.onto (h : t.AllAlike vs ws) (ht : t.Sound) (ho : t.Onto s' uses t') : t'.AllAlike vs ws :=
  AllStand.mono h ho.numbers fun _ hc => hc.onto ht ho

/-- What has been used elsewhere leaves numbers clear. -/
theorem Clear.onto (h : t.Clear s own a b) (ht : t.Sound) (ho : t.Onto s uses t') (hs : s < t.store.scopes.size)
    (hu : ∀ n, a ≤ n → n < b → ¬ uses n) : t'.Clear s own a b where
  bound := Nat.le_trans h.bound ho.nextSlot
  plain n ha hb := (ho.hidden n (Nat.lt_of_lt_of_le hb h.bound)).not.mpr (h.plain n ha hb)
  mine n ha hb := (ho.own s n hs (Nat.lt_of_lt_of_le hb h.bound)).trans (h.mine n ha hb)
  outer n u ha hb hout hne := by
    have hout' := (ho.outward ht hs).mp hout
    have hu := Nat.lt_of_le_of_lt (hout'.le ht.parents) hs
    exact (ho.own u n hu (Nat.lt_of_lt_of_le hb h.bound)).not.mpr (h.outer n u ha hb hout' hne)
  fresh cell hc hcs ha hb := by
    rcases Nat.lt_or_ge cell t.world.cells.size with hlt | hge
    · rw [ho.place cell hlt] at hcs ha hb
      exact h.fresh cell hlt hcs ha hb
    · rcases ho.fresh cell hc hge with hn | ⟨-, hn⟩
      · exact Nat.not_lt.mpr hn (hcs ▸ hs)
      · exact hu _ ha hb hn

theorem Clear.sub {a' b' : Nat} (h : t.Clear s own a b) (ha : a ≤ a') (hb : b' ≤ b) : t.Clear s own a' b' where
  bound := Nat.le_trans hb h.bound
  plain n hn hn' := h.plain n (Nat.le_trans ha hn) (Nat.lt_of_lt_of_le hn' hb)
  mine n hn hn' := h.mine n (Nat.le_trans ha hn) (Nat.lt_of_lt_of_le hn' hb)
  outer n u hn hn' := h.outer n u (Nat.le_trans ha hn) (Nat.lt_of_lt_of_le hn' hb)
  fresh cell hc hcs hn hn' := h.fresh cell hc hcs (Nat.le_trans ha hn) (Nat.lt_of_lt_of_le hn' hb)

/-- The names of a function that is made in a scope are vacant there. -/
theorem Clear.vacant (h : t.Clear s own a b) (ha : Avoids own a b) : t.Vacant s a b where
  bound := h.bound
  plain := h.plain
  outer n u hn hn' hout := by
    by_cases hu : u = s
    · subst hu
      exact (h.mine n hn hn').not.mpr (ha n hn hn')
    · exact h.outer n u hn hn' hout hu

/-- No slot that is read is one of a scope in between. -/
theorem Sound.lookup_cell (ht : t.Sound) {cell : Nat} (hc : cell < t.world.cells.size)
    (hout : t.store.Outward s (t.place cell).1) :
    t.store.lookup s (t.place cell).2 = t.store.slot? (t.place cell).1 (t.place cell).2 := by
  refine Store.lookup_only ht.parents hout fun u hu hsome => ?_
  obtain ⟨v, hv⟩ := Option.isSome_iff_exists.mp hsome
  have hmine := ht.placed cell hc
  rcases ht.saved _ _ _ hv with hh | ⟨cell', hc', hp⟩
  · exact absurd hh (ht.owned _ _ hmine).2.2
  · have hother := ht.placed cell' hc'
    rw [hp] at hother
    rcases hout.total hu with h | h
    · exact (ht.nested _ _ _ h hmine hother).symm
    · exact ht.nested _ _ _ h hother hmine

/-- What a name means in a scope. -/
theorem Reads.lookup (h : t.Reads gs env s) (ht : t.Sound) {name : String} {slot : Slot}
    (hs : findSlot? gs name = some slot) :
    ∃ cell, env.lookup name = some cell ∧ slot.name = name ∧
      Both t.Alike (t.store.lookup s slot.id) (t.world.cell? cell) := by
  rcases h name with ⟨hn, -⟩ | ⟨slot', cell, hs', hcell, hname, hlt, hid, hout⟩
  · cases hn.symm.trans hs
  · cases hs'.symm.trans hs
    refine ⟨cell, hcell, hname, ?_⟩
    rw [← hid, ht.lookup_cell hlt hout]
    exact ht.cell cell hlt

end

end Twin

end MatchLang
