import MatchLang.Proofs.Direct.Program
import MatchLang.Proofs.Namespace.Making
import MatchLang.Proofs.Simulation.Expressions

/-! Functions. A function runs in a frame over that of its caller, and in a scope of its own; when it is restarted it
has the same frame and another scope. A run of it follows the evaluation that takes as much fuel. -/

namespace MatchLang

namespace Twin

variable {t : Twin} {c : Closure} {f : Lambda}

/-- A new scope for a function that has been made. -/
theorem Carries.pushScope (h : t.Carries c f) (ht : t.Sound) :
    ∃ l own own' gs a b i j r, (t.pushScope (some c.scope) own').Ready t.store.scopes.size own gs f.env a b i j ∧
      FunctionLinks l f.params f.body own gs a b ∧ PatternsCode l none f.params c.line c.code.instrs r ∧
      BlockCode l f.body c.code true i j r [] := by
  obtain ⟨l, own, gs, a, b, i, j, r, hp, hb, hl, hr, hv, hi⟩ := h.code
  have hparent : ∀ p, some c.scope = some p → p < t.store.scopes.size := by
    rintro _ ⟨⟩
    exact h.scope
  have houter : ∀ n p u, a ≤ n → n < b → some c.scope = some p → t.store.Outward p u → ¬ t.own u n := by
    rintro n _ u hn hn' ⟨⟩ hu
    exact hv.outer n u hn hn' hu
  refine ⟨l, own, fun n => own n ∧ a ≤ n ∧ n < b, gs, a, b, i, j, r, ⟨?_, ?_, ?_, ?_, ?_⟩, hl, hp, hb⟩
  · refine pushScope_sound ht hparent (fun n ⟨_, hn, hn'⟩ => ⟨Nat.lt_of_lt_of_le hn' hv.bound, hv.plain n hn hn'⟩) ?_
    exact fun n p u ⟨_, hn, hn'⟩ => houter n p u hn hn'
  · simp [Twin.pushScope, Store.newScope]
  · exact pushScope_reads ht hr h.scope
  · exact pushScope_clear ht hparent hv.bound hv.plain (fun n hn hn' => by simp [hn, hn']) houter
  · exact hi

end Twin

namespace Machine

/-- A function runs in a scope for a caller, which goes on with some code. -/
def within (m : Machine) (line : Nat) (k : List Instr) (c : Closure) (scope : Nat) : Machine :=
  { m with
    task := { m.task with
      frames := (m.task.frames.update fun f => { f with line, rest := k }).push
        { closure := c, scope, line := c.line, rest := c.code.instrs } } }

/-- A function is at its start, in a new scope. -/
def starts (m : Machine) (line : Nat) (k : List Instr) (c : Closure) (σ : Store) (os : List Value) (line' : Nat) :
    Machine :=
  (m.within line k c σ.scopes.size).resume (σ.newScope (some c.scope)).2 os line' c.code.instrs

variable {host : Host} {sugar : Sugar} {level : Nat} {m : Machine} {a : Activation} {t : Twin} {os vs ws : List Value}
  {k is : List Instr} {line line' line₁ s : Nat} {c d : Closure} {r : Rules} {σ : Store}

@[simp] theorem within_closure : (m.within line k c s).frame.closure = c :=
  rfl

@[simp] theorem within_scope : (m.within line k c s).frame.scope = s :=
  rfl

theorem pushFrame_eq : (m.resume σ os line k).pushFrame c = m.starts line k c σ os c.line :=
  rfl

theorem step_return : ((m.within line k c s).resume σ os line' []).step host = .running (m.resume σ os line k) :=
  rfl

theorem step_restart {n : Nat} (h : c.arity = n) :
    ((m.within line k c s).resume σ os line' (.mk line₁ (.tailCall n) :: is)).step host =
      .running (m.starts line k c σ os line₁) := by
  refine step_resume.trans ?_
  show tailCall _ n = _
  rw [tailCall, resume_closure, within_closure, if_pos h]
  rfl

theorem Acts.within (ha : m.Acts a) (hc : c.Stands t.numbers t.Made d) :
    (m.within line k c s).Acts { self := d, depth := a.depth + 1 } := by
  have hsame : { d with id := c.bare.id } = c.bare := hc.like.same
  have hmodule : d.module = c.module := congrArg (·.module) hsame
  have hline : d.line = c.line := congrArg (·.line) hsame
  exact
    { text := by simp [Closure.text, hmodule, hline]
      home := (congrArg (·.home) hsame).symm
      module := hmodule.symm
      line := hline.symm
      arity := (congrArg (·.arity) hsame).symm
      depth := congrArg (· + 1) ha.depth }

theorem failureOf_within (ha : m.Acts a) {f : Fault} {trace : List TraceEntry} :
    (m.within line k c s).failureOf f trace = m.failureOf f (trace ++ [a.entry line]) := by
  have hentry : a.entry line = ({ m.frame with line, rest := k } : Frame).entry := by
    simp [Activation.entry, Frame.entry, ha.text]
  rw [failureOf, failureOf, hentry, List.append_assoc]
  rfl

/-- The body of a function follows its evaluation. -/
theorem follows_lambda (hf : r.Fit host sugar level) (ha : m.Acts a) {f : Lambda} {l : Links} {own : Nat → Prop}
    {gs : List Group} {b b' i j : Nat} (h : t.Ready m.frame.scope own gs f.env b b' i j)
    (hl : FunctionLinks l f.params f.body own gs b b')
    (hp : PatternsCode l none f.params m.frame.closure.line m.frame.closure.code.instrs is)
    (hb : BlockCode l f.body m.frame.closure.code true i j is []) (hall : t.AllAlike vs ws)
    (hlen : vs.length = f.params.length) :
    m.Follows host sugar (level + 1) (some os) t (Twin.Used b b' i j) (vs ++ os) m.frame.closure.code.instrs
      (r.lambda a f ws) (Twin.Pushes os) [] := by
  obtain ⟨g₁, g₂, m₁, m₂, hd₁, hd₂, hfills, hlb⟩ := hl
  have h₁ := hd₁.le
  have h₂ := hd₂.le
  have h₃ := (BodyLinks.local f.body hlb).1
  have h₄ := BlockCode.slots_le f.body hb
  unfold Rules.lambda
  rw [hf.same, ← ha.line]
  refine .enter h hd₁ (fun n hn hn' => hfills n hn (by omega)) (by omega) (by unfold Twin.Used; omega)
    fun t' env' hs ho h' hbinds => ?_
  refine (follows_bindAll ha unpublished f.params h'.sound hbinds (Twin.AllAlike.onto hall h.sound ho) hlen
    hp).seq (u := Twin.Unused) (fun _ => False.elim) fun t₂ _ os₂ ht₂ ho₂ hos => ?_
  cases hos
  exact (Follows.block (h'.keep ht₂ ho₂) ⟨g₂, m₂, hd₂, fun n hn hn' => hfills n (by omega) hn', hlb⟩
    fun h hb' hl => follows_body hf ha f.body h hb' hl hb fun _ => rfl).mono
    (Twin.Used.mono h₁ (Nat.le_refl b') (Nat.le_refl i) (Nat.le_refl j))

theorem runLambda_eq {callLimit : Option Nat} {n depth : Nat} {f : Lambda} {ω : World}
    (h : ω.lambdas.lookup c.id = some f) :
    runLambda sugar callLimit (n + 1) depth c ws ω =
      (Rules.lambda { sugar, callLimit, enter := runLambda sugar callLimit n } { self := c, depth } f ws).orRestart
        (runLambda sugar callLimit n depth c) ω := by
  rw [runLambda]
  refine (Eval.bind_ok (x := Eval.look _) rfl).trans ?_
  rw [h]

/-- A run of a function, from its start on, follows the evaluation with some fuel. -/
theorem tracks_runLambda {n : Nat} (ha : m.Acts a) (ht : t.Sound) (hc : c.Stands t.numbers t.Made d)
    (hall : t.AllAlike vs ws) (hlen : vs.length = c.arity)
    (htrust : (m.starts line k c t.store (vs ++ os) line').Trusted host sugar) :
    (m.starts line k c t.store (vs ++ os) line').Tracks host n none m t Twin.Unused (Twin.Pushes os) k
      (a.calling line (runLambda sugar host.callLimit n (a.depth + 1) d ws) t.world) := by
  induction n generalizing m a t os vs ws k line line' c d with
  | zero => exact ⟨_, rfl⟩
  | succ n ih =>
    obtain ⟨id, f, hid, hlookup, hcarries⟩ := hc.made
    obtain rfl : d.id = id := (ht.fits.iff _ _ _ _ hc.like.id hid).mp rfl
    obtain ⟨l, own, own', gs, b, b', i, j, is, hready, hl, hp, hb⟩ := hcarries.pushScope ht
    have hfit : Rules.Fit { sugar, callLimit := host.callLimit, enter := runLambda sugar host.callLimit n } host sugar n :=
      ⟨rfl, rfl, fun _ _ _ _ _ _ _ _ _ _ ha ht hc hall hlen htrust => ih ha ht hc hall hlen htrust⟩
    have ho : t.Onto m.frame.scope Twin.Unused (t.pushScope (some c.scope) own') := Twin.pushScope_onto
    have hacts : (m.within line k c t.store.scopes.size).Acts { self := d, depth := a.depth + 1 } := ha.within hc
    have hbody := follows_lambda hfit hacts hready hl hp hb (Twin.AllAlike.onto hall ht ho)
      (hlen.trans hcarries.arity) line' htrust
    rw [show (t.pushScope (some c.scope) own').world = t.world from rfl] at hbody
    unfold Activation.calling
    rw [runLambda_eq hlookup]
    unfold Eval.orRestart
    generalize Rules.lambda _ _ f ws t.world = res at hbody ⊢
    match res, hbody with
    | (.ok w, ω), ⟨t', os', line₂, hw, ht', ho', ⟨v, hos, hv⟩, hreach⟩ =>
      subst hos
      exact ⟨t', _, line, hw, ht', ho.trans_or ho' (.inl (Nat.le_refl _)), ⟨v, rfl, hv⟩,
        hreach.trans (.of_step step_return)⟩
    | (.error (.fault e trace), ω), ⟨t', m', e', hw, ht', hs, hraise, he⟩ =>
      exact ⟨t', m', e', hw, ht', hs, hraise, he.trans (failureOf_within ha)⟩
    | (.error (.restart args), ω), ⟨below, t', vs', line₂, line₃, is', hbelow, hw, ht', ho', hall', hlen', hreach⟩ =>
      obtain rfl := Option.some.inj hbelow
      subst hw
      have hstep := hreach.trans (.of_step (step_restart hlen'.symm))
      have hfinal := ho.trans_or ho' (.inl (Nat.le_refl _))
      refine Tracks.of_reaches hreach (.of_step (step_restart hlen'.symm) (Tracks.onto hfinal ?_))
      have hc' : c.Stands t'.numbers t'.Made d :=
        ⟨{ hc.like with id := hfinal.numbers _ _ hc.like.id }, hc.made.onto ht hfinal⟩
      exact ih ha ht' hc' hall' hlen' (htrust.reaches hstep)
    | (.error .cut, ω), h => exact h

theorem enterFits_runLambda (n : Nat) : EnterFits host sugar n (runLambda sugar host.callLimit n) :=
  fun _ _ _ _ _ _ _ _ _ _ ha ht hc hall hlen htrust => tracks_runLambda ha ht hc hall hlen htrust

end Machine

/-! Declarations. What they declare goes into the root of the running module, on both sides alike; the names of a
namespace have a group of their own. -/

theorem Numbering.extend_add {ρ : Numbering} {n n' k p q : Nat} (h : ρ.extend n n' k p q) :
    ρ.add n n' (fun p q => p = q ∧ p < k) p q := by
  rcases h with h | ⟨i, hi, rfl, rfl⟩
  · exact .inl h
  · exact .inr ⟨i, i, ⟨rfl, hi⟩, rfl, rfl⟩

namespace Machine

variable {host : Host} {sugar : Sugar} {level : Nat} {tail : Option (List Value)} {m : Machine} {a : Activation}
  {t : Twin} {uses : Nat → Prop} {os : List Value} {is k : List Instr} {line : Nat} {r : Rules} {path : List String}

theorem follows_makeNamespace (ha : m.Acts a) (hr : m.task.root = m.frame.closure.home) (ht : t.Sound)
    {isPublic : Bool} :
    m.Follows host sugar level tail t uses os (.mk line (.makeNamespace path isPublic) :: k)
      (a.declare line fun ns => ns.make path isPublic) (Twin.Leaves os) k :=
  follows_declare (·.make path isPublic) _ ha hr ht (.refl _ _ _) rfl makeNamespace_eq ((ha.home_stands ht).make path isPublic)

/-- A data type is made, whose cases have the next numbers. -/
theorem follows_defineType (ha : m.Acts a) (hr : m.task.root = m.frame.closure.home) (ht : t.Sound) {name : String}
    {cases : List CaseShape} {n : Nat} (hn : n = cases.length) :
    m.Follows host sugar level tail t uses os (.mk line (.makeType name path cases) :: k)
      (do
        let id ← Eval.look World.nextIdentity
        Eval.change fun ω => { ω with nextIdentity := ω.nextIdentity + n }
        a.declare line fun ns => defineIn ns path name (numberCases id cases))
      (Twin.Leaves os) k := by
  subst hn
  have ho : t.Onto m.frame.scope uses (t.advance cases.length (fun p q => p = q ∧ p < cases.length) []) :=
    Twin.advance_onto ht (by simp)
  have ht' : (t.advance cases.length (fun p q => p = q ∧ p < cases.length) []).Sound :=
    Twin.advance_sound ht (.same cases.length) (by simp)
  refine follows_declare (defineIn · path name (numberCases t.store.nextIdentity cases))
    (defineIn · path name (numberCases t.world.nextIdentity cases)) ha hr ht' ho rfl rfl
    (Namespace.Stands.defineIn (ha.home_stands ht') ?_)
  exact (numberCases_like _ _ _ cases).imp fun c d h => ⟨Numbering.extend_add h.1, h.2⟩

theorem follows_makeType (ha : m.Acts a) (hr : m.task.root = m.frame.closure.home) (ht : t.Sound) {name : QName}
    {isPublic : Bool} {cases : List CaseDecl} :
    m.Follows host sugar level tail t uses os (typeCode path name isPublic cases ++ k)
      (a.makeType path name isPublic cases) (Twin.Leaves os) k := by
  unfold typeCode Activation.makeType
  cases name.parts.getLast? with
  | none => exact .pure ht rfl
  | some last =>
    simp only
    split
    · exact follows_defineType ha hr ht (by simp)
    · refine (follows_makeNamespace ha hr ht).bind fun t' _ os' ht' ho hos => ?_
      cases hos
      exact follows_defineType ha hr ht' (by simp)

theorem bindingPatterns_cons {d : Decl} {ds : List Decl} :
    bindingPatterns (d :: ds) = bindingPatterns [d] ++ bindingPatterns ds :=
  List.filterMap_append (l := [d])

section

variable {l : Links} {own : Nat → Prop} {publishRoot : Bool}

mutual

theorem follows_decls (hf : r.Fit host sugar level) (ha : m.Acts a) (hr : m.task.root = m.frame.closure.home)
    (ds : List Decl) {path : List String} {gs : List Group} {env : Env} {b b' i j : Nat} {t : Twin} {os : List Value}
    {is k : List Instr} (h : t.Ready m.frame.scope own gs env b b' i j)
    (hb : t.Binds l (patternsLeaves (bindingPatterns ds)) env m.frame.scope) (hl : DeclsLinks l ds own gs b b')
    (hc : DeclsCode l publishRoot ds path m.frame.closure.code i j is k) :
    m.Follows host sugar (level + 1) tail t (Twin.Used b b' i j) os is (r.decls a publishRoot env path ds)
      (Twin.Leaves os) k := by
  match ds with
  | [] =>
    simp only [DeclsCode] at hc
    obtain ⟨-, rfl⟩ := hc
    unfold Rules.decls
    exact .pure h.sound rfl
  | d :: ds =>
    obtain ⟨mid, start, hd, hds⟩ := hc
    obtain ⟨c, hld, hlds⟩ := hl
    have h₁ := (DeclLinks.local d hld).1
    have h₂ := (DeclsLinks.local ds hlds).1
    have h₃ := DeclCode.slots_le d hd
    have h₄ := DeclsCode.slots_le ds hds
    rw [bindingPatterns_cons, patternsLeaves_append] at hb
    unfold Rules.decls
    refine (follows_decl hf ha hr d (h.sub (Nat.le_refl b) h₂ (Nat.le_refl i) h₄) hb.append.1 hld hd).seq
      (Twin.Used.mono (Nat.le_refl b) h₂ (Nat.le_refl i) h₄) fun t' _ os' ht' ho hos => ?_
    cases hos
    have h' := h.after ht' ho c b' mid j h₁ (Nat.le_refl b') h₃ (Nat.le_refl j)
      (by omega) (.inl (Nat.le_refl c))
    exact (follows_decls hf ha hr ds h' (hb.append.2.onto ho) hlds hds).mono (Twin.Used.mono h₁ (Nat.le_refl b') h₃ (Nat.le_refl j))
termination_by sizeOf ds

theorem follows_decl (hf : r.Fit host sugar level) (ha : m.Acts a) (hr : m.task.root = m.frame.closure.home)
    (d : Decl) {path : List String} {gs : List Group} {env : Env} {b b' i j : Nat} {t : Twin} {os : List Value}
    {is k : List Instr} (h : t.Ready m.frame.scope own gs env b b' i j)
    (hb : t.Binds l (patternsLeaves (bindingPatterns [d])) env m.frame.scope) (hl : DeclLinks l d own gs b b')
    (hc : DeclCode l publishRoot d path m.frame.closure.code i j is k) :
    m.Follows host sugar (level + 1) tail t (Twin.Used b b' i j) os is (r.decl a publishRoot env path d)
      (Twin.Leaves os) k := by
  match d with
  | .space ns =>
    unfold DeclLinks at hl
    unfold Rules.decl
    exact follows_space hf ha hr ns h hl hc
  | .type name isPublic cases none =>
    obtain ⟨start, rfl, -, rfl⟩ := hc
    unfold Rules.decl
    exact follows_makeType ha hr h.sound
  | .type name isPublic cases (some ns) =>
    obtain ⟨start, rfl, hc⟩ := hc
    unfold DeclLinks at hl
    unfold Rules.decl
    refine (follows_makeType ha hr h.sound).seq (u := Twin.Unused) (fun _ => False.elim) fun t' _ os' ht' ho hos => ?_
    cases hos
    by_cases hn : name.parts.isEmpty = true
    · simp only [hn, if_true] at hc ⊢
      obtain ⟨-, rfl⟩ := hc
      exact .pure ht' rfl
    · simp only [hn] at hc ⊢
      exact follows_space hf ha hr ns (h.keep ht' ho) hl hc
  | .binding p value isPublic =>
    obtain ⟨start, hv, hp⟩ := hc
    unfold DeclLinks at hl
    unfold Rules.decl
    refine (Follows.block h hl fun h hb hl => follows_body hf ha value h hb hl hv nofun).bind
      fun t' w os' ht' ho ⟨v, hos, hvw⟩ => ?_
    subst hos
    rw [hf.same]
    exact follows_bind ha (fun _ => hr) p ht' (hb.cons.1.onto ho) hvw hp
termination_by sizeOf d

theorem follows_space (hf : r.Fit host sugar level) (ha : m.Acts a) (hr : m.task.root = m.frame.closure.home)
    (ns : NamespaceDecl) {path : List String} {gs : List Group} {env : Env} {b b' i j : Nat} {t : Twin} {os : List Value}
    {is k : List Instr} (h : t.Ready m.frame.scope own gs env b b' i j) (hl : NamespaceLinks l ns own gs b b')
    (hc : NamespaceCode l publishRoot ns path m.frame.closure.code i j is k) :
    m.Follows host sugar (level + 1) tail t (Twin.Used b b' i j) os is (r.space a publishRoot env path ns)
      (Twin.Leaves os) k := by
  match ns with
  | .mk name isPublic ds =>
    obtain ⟨start, rfl, hds⟩ := hc
    obtain ⟨g, c, hd, hfills, hl⟩ := hl
    have hc := (DeclsLinks.local ds hl).1
    unfold Rules.space
    refine (follows_makeNamespace ha hr h.sound).seq (u := Twin.Unused) (fun _ => False.elim)
      fun t' _ os' ht' ho hos => ?_
    cases hos
    refine .enter (h.keep ht' ho) hd hfills hc (by unfold Twin.Used; omega) fun t₂ env' _ _ h' hb => ?_
    exact (follows_decls hf ha hr ds h' hb hl hds).mono (Twin.Used.mono hd.le (Nat.le_refl b') (Nat.le_refl i) (Nat.le_refl j))
termination_by sizeOf ns

end

end

end Machine

/-! Whole programs. A program is followed if the imports in it are; how an import is followed does not matter here. -/

/-- What a program leaves on the stack. -/
def Twin.Yields (os : List Value) (t : Twin) (w : Option Value) (os' : List Value) : Prop :=
  match w with
  | some w => Twin.Pushes os t w os'
  | none => os = os'

section

variable {α : Type}

/-- A transition from one machine comes to what an evaluation comes to: it is a fault of that machine, or the run that it
leads to tracks the evaluation. -/
inductive Transition.Tracks (host : Host) (level : Nat) (m : Machine) (t : Twin) (uses : Nat → Prop)
    (post : Twin → α → List Value → Prop) (k : List Instr) : Transition → Except Halt α × World → Prop where
  | running {m₁ : Machine} {r : Except Halt α × World} : m₁.Tracks host level none m t uses post k r →
    Tracks host level m t uses post k (.running m₁) r
  | raised {m' : Machine} {t' : Twin} {f f' : Fault} {trace : List TraceEntry} : t'.Sound → m'.store = t'.store →
    m'.failure f' = m.failureOf f trace →
    Tracks host level m t uses post k (.raised m' f') (.error (.fault f trace), t'.world)

end

/-- What is known of a run that a transition leads to. -/
def Transition.Trusted (host : Host) (sugar : Sugar) (tr : Transition) : Prop :=
  ∀ m, tr = .running m → m.Trusted host sugar

/-- Modules are brought by a machine as they are by an evaluation, up to some number of steps. -/
def Brings (host : Host) (sugar : Sugar) : (level : Nat) → Importer → Prop
  | 0, bring => ∀ a line file delivery ω, bring a line file delivery ω = (.error .cut, ω)
  | level + 1, bring => ∀ (m : Machine) (a : Activation) (t : Twin) (os : List Value) (k : List Instr) (line : Nat)
    (file : String) (delivery : Delivery), m.Acts a → m.task.root = m.frame.closure.home → t.Sound →
    ((m.resume t.store os line k).load host file delivery).Trusted host sugar →
    ((m.resume t.store os line k).load host file delivery).Tracks host level m t Twin.Unused (Twin.Leaves os) k
      (bring a line file delivery t.world)

/-- The instruction that imports what is asked for. -/
def Delivery.op (file : String) : Delivery → Op
  | .whole => .importAll file
  | .entry path => .importEntry file path

theorem importCode_eq (i : Import) : importCode i = i.deliveries.map fun d => .mk i.line (d.op i.file) := by
  unfold importCode Import.deliveries
  split <;> simp [Delivery.op]

section

variable {α β : Type} {host : Host} {sugar : Sugar} {level : Nat} {m start : Machine} {t : Twin} {uses u : Nat → Prop}
  {k k' : List Instr} {post : Twin → α → List Value → Prop} {post' : Twin → β → List Value → Prop} {tr : Transition}
  {r : Except Halt α × World}

/-- A machine that takes a step tracks what the transition does. -/
theorem Transition.Tracks.of_step (hs : start.step host = tr) (h : tr.Tracks host level m t uses post k r) :
    start.Tracks host (level + 1) none m t uses post k r := by
  cases h with
  | running h => exact Machine.Tracks.of_step hs h
  | raised ht hstore hf => exact ⟨_, _, _, rfl, ht, hstore, ⟨_, .refl _, hs⟩, hf⟩

/-- First a transition and then some code. -/
theorem Transition.Tracks.seq {x : Eval α} {f : α → Eval β} (h : tr.Tracks host level m t u post k (x t.world))
    (htrust : tr.Trusted host sugar) (hu : ∀ n, u n → uses n)
    (hf : ∀ t' a os', t'.Sound → t.Onto m.frame.scope u t' → post t' a os' →
      m.Follows host sugar level none t' uses os' k (f a) post' k') :
    tr.Tracks host level m t uses post' k' ((x >>= f) t.world) := by
  generalize hx : x t.world = res at h
  cases h with
  | @running m₁ res h =>
    rw [← hx] at h
    exact .running (h.seq hu fun t' a os' line ht' ho hp hr => hf t' a os' ht' ho hp line ((htrust m₁ rfl).reaches hr))
  | raised ht hs he =>
    rw [Eval.bind_error hx]
    exact .raised ht hs he

end

namespace Machine

variable {host : Host} {sugar : Sugar} {level : Nat} {tail : Option (List Value)} {m : Machine} {a : Activation}
  {t : Twin} {uses : Nat → Prop} {os : List Value} {is k : List Instr} {line : Nat} {r : Rules} {bring : Importer}

/-- A number of steps is also any smaller number of steps. -/
theorem Tracks.weaken {α : Type} {start : Machine} {post : Twin → α → List Value → Prop} {x : Except Halt α × World}
    (h : start.Tracks host (level + 1) tail m t uses post k x) : start.Tracks host level tail m t uses post k x := by
  match x, h with
  | (.ok _, _), h => exact h
  | (.error (.fault _ _), _), h => exact h
  | (.error (.restart _), _), h => exact h
  | (.error .cut, _), ⟨m', hw⟩ =>
    obtain ⟨m₁, h₁, -⟩ := walk_le hw (Nat.le_succ level)
    exact ⟨m₁, h₁⟩

theorem Follows.weaken {α : Type} {x : Eval α} {post : Twin → α → List Value → Prop}
    (h : m.Follows host sugar (level + 1) tail t uses os is x post k) :
    m.Follows host sugar level tail t uses os is x post k :=
  fun line htrust => (h line htrust).weaken

/-- An entry of an import. -/
theorem follows_bring (hb : Brings host sugar level bring) (ha : m.Acts a) (hr : m.task.root = m.frame.closure.home)
    (ht : t.Sound) (file : String) (delivery : Delivery) :
    m.Follows host sugar level tail t uses os (.mk line (delivery.op file) :: k) (bring a line file delivery)
      (Twin.Leaves os) k := by
  intro line' htrust
  have hs : (m.resume t.store os line' (.mk line (delivery.op file) :: k)).step host =
      (m.resume t.store os line k).load host file delivery := by
    cases delivery <;> exact step_resume
  cases level with
  | zero =>
    rw [hb]
    exact ⟨_, rfl⟩
  | succ level =>
    refine Tracks.anyTail ((Transition.Tracks.of_step hs (hb m a t os k line file delivery ha hr ht ?_)).mono
      fun _ => False.elim)
    exact fun m₁ hm₁ => htrust.reaches (.of_step (hs.trans hm₁))

theorem follows_bringAll (hb : Brings host sugar level bring) (ha : m.Acts a) (hr : m.task.root = m.frame.closure.home)
    (file : String) : (ds : List Delivery) → {t : Twin} → t.Sound →
      m.Follows host sugar level tail t uses os (ds.map (fun d => .mk line (d.op file)) ++ k)
        (bringAll bring a line file ds) (Twin.Leaves os) k
  | [], _, ht => .pure ht rfl
  | d :: ds, _, ht => by
    unfold bringAll
    refine (follows_bring hb ha hr ht file d).bind fun t' _ os' ht' ho hos => ?_
    cases hos
    exact follows_bringAll hb ha hr file ds ht'

/-- All imports of a program. -/
theorem follows_bringImports (hb : Brings host sugar level bring) (ha : m.Acts a)
    (hr : m.task.root = m.frame.closure.home) : (is : List Import) → {t : Twin} → t.Sound →
      m.Follows host sugar level tail t uses os (is.flatMap importCode ++ k) (bringImports bring a is) (Twin.Leaves os) k
  | [], _, ht => .pure ht rfl
  | i :: is, _, ht => by
    unfold bringImports
    rw [List.flatMap_cons, List.append_assoc, importCode_eq]
    refine (follows_bringAll hb ha hr i.file i.deliveries ht).bind fun t' _ os' ht' ho hos => ?_
    cases hos
    exact follows_bringImports hb ha hr is ht'

section

variable {l : Links} {own : Nat → Prop} {b b' i j : Nat} {p : Program} {publishRoot : Bool}

/-- A program without its imports. -/
theorem follows_script (hf : r.Fit host sugar level) (ha : m.Acts a) (hr : m.task.root = m.frame.closure.home)
    (h : t.Ready m.frame.scope own [] [] b b' i j) (hl : ProgramLinks l p own b b') {mid : Nat} {is' : List Instr}
    (hc : DeclsCode l publishRoot p.root.decls [] m.frame.closure.code i mid is is')
    (hc' : match p.trailing with
      | some call => ExprCode l call.toExpr m.frame.closure.code false mid j is' []
      | none => j = mid ∧ is' = []) :
    m.Follows host sugar (level + 1) tail t (Twin.Used b b' i j) os is (r.script a publishRoot p) (Twin.Yields os) [] := by
  obtain ⟨g, c, c', hd, hfills, hds, htrail⟩ := hl
  have h₁ := (DeclsLinks.local p.root.decls hds).1
  have h₂ := DeclsCode.slots_le p.root.decls hc
  have h₃ : c' ≤ b' ∧ mid ≤ j := by
    revert htrail hc'
    cases p.trailing with
    | none =>
      rintro ⟨rfl, -⟩ rfl
      exact ⟨Nat.le_refl _, Nat.le_refl _⟩
    | some call => exact fun hc' htrail => ⟨(ExprLinks.local call.toExpr htrail).1, ExprCode.slots_le call.toExpr hc'⟩
  unfold Rules.script
  refine .enter h hd hfills (by omega) (by unfold Twin.Used; omega) fun t' env' _ _ h' hb => ?_
  refine (follows_decls hf ha hr p.root.decls (h'.sub (Nat.le_refl c) h₃.1 (Nat.le_refl i) h₃.2) hb hds hc).seq
    (Twin.Used.mono hd.le h₃.1 (Nat.le_refl i) h₃.2) fun t₂ _ os₂ ht₂ ho₂ hos => ?_
  cases hos
  revert htrail hc'
  cases p.trailing with
  | none =>
    rintro ⟨-, rfl⟩ -
    exact .pure ht₂ rfl
  | some call =>
    intro hc' htrail
    have h₄ := h'.after ht₂ ho₂ c' b' mid j h₁ (Nat.le_refl b') h₂ (Nat.le_refl j)
      (by omega) (.inl (Nat.le_refl c'))
    refine ((follows_expr hf ha call.toExpr h₄ htrail hc' nofun).mono (Twin.Used.mono (Nat.le_trans hd.le h₁)
      (Nat.le_refl b') h₂ (Nat.le_refl j))).bind fun t₃ w os₃ ht₃ _ hw => .pure ht₃ hw

/-- A program with its imports. -/
theorem follows_program (hf : r.Fit host sugar level) (hb : Brings host sugar level bring) (ha : m.Acts a)
    (hr : m.task.root = m.frame.closure.home) (h : t.Ready m.frame.scope own [] [] b b' i j)
    (hl : ProgramLinks l p own b b') (hc : ProgramCode l publishRoot p m.frame.closure.code i j) :
    m.Follows host sugar level tail t (Twin.Used b b' i j) os m.frame.closure.code.instrs
      (p.evaluate r bring publishRoot a) (Twin.Yields os) [] := by
  obtain ⟨mid, is, is', himports, hds, htrail⟩ := hc
  unfold Program.evaluate
  rw [himports]
  refine (follows_bringImports hb ha hr p.imports h.sound).seq (u := Twin.Unused) (fun _ => False.elim)
    fun t' _ os' ht' ho hos => ?_
  cases hos
  exact (follows_script hf ha hr (h.keep ht' ho) hl hds htrail).weaken

end

end Machine

end MatchLang
