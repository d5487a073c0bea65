import MatchLang.Proofs.Lowering.Slots
import MatchLang.Proofs.Simulation.Pure

/-! Expressions and blocks. The run of the code of a form follows the evaluation of the form; one lemma for each form,
by induction on the syntax. -/

namespace MatchLang

namespace Rules

variable {r : Rules} {a : Activation} {env : Env} {callee : Expr} {line : Nat}

theorem expr_match {scrutinee : Expr} {cases : List Block} {caseLine : Nat} (hm : callee.isMatchName = true) :
    r.expr a env (.call callee [scrutinee, .list cases caseLine] line) =
      (r.expr a env scrutinee >>= fun v => r.arms a env line v cases) := by
  rw [Rules.expr.eq_def]
  simp only [hm, if_true]

theorem expr_self {selfLine : Nat} {args : List Expr} :
    r.expr a env (.call (.self selfLine) args line) = (r.exprs a env args >>= fun vs =>
      if vs.length = a.self.arity then Eval.halt (.restart vs) else a.raise line .partialTailCall) := by
  rw [Rules.expr.eq_def]
  rfl

theorem expr_call {args : List Expr} (hm : callee.isMatchName = false) (hs : ∀ selfLine, callee ≠ .self selfLine) :
    r.expr a env (.call callee args line) = (r.exprs a env args >>= fun vs =>
      r.expr a env callee >>= fun f => r.call a line f vs) := by
  rw [Rules.expr.eq_def]
  cases callee with
  | self selfLine => exact absurd rfl (hs selfLine)
  | _ => simp only [hm, Bool.false_eq_true, if_false]

theorem blocks_cons {e : Block} {es : List Block} :
    r.blocks a env (e :: es) =
      (r.block a env e >>= fun v => r.blocks a env es >>= fun vs => pure (v :: vs)) := by
  rw [Rules.blocks]
  exact (Eval.bind_assoc ..).symm

theorem inFront_cons {e : Block} {es : List Block} {tail : Value} :
    r.inFront a env line (e :: es) tail =
      (r.inFront a env line es tail >>= fun rest => r.block a env e >>= fun v => r.cons a line v rest) := by
  rw [Rules.inFront]
  exact congrArg (_ >>= ·) (funext fun _ => (Eval.bind_assoc ..).symm)

theorem arms_cons {p : Pattern} {body : Block} {armLine : Nat} {cases : List Block} {v : Value} :
    r.arms a env line v (.result (.function [p] body armLine) :: cases) =
      (a.test r.sugar armLine p v >>= fun yes => if yes then
          openGroup [p] env >>= fun inner => a.bind r.sugar inner none p armLine v >>= fun _ => r.block a inner body
        else r.arms a env line v cases) := by
  rw [Rules.arms]
  rfl

theorem body_bind {p : Pattern} {value rest : Block} {isPublic : Bool} :
    r.body a env (.bind p value isPublic rest) =
      (r.block a env value >>= fun v =>
        a.bind r.sugar env none p value.value.line v >>= fun _ => r.body a env rest) := by
  rw [Rules.body]
  exact (Eval.bind_assoc ..).symm

end Rules

namespace Machine

section

variable {α β : Type} {host : Host} {sugar : Sugar} {level : Nat} {tail : Option (List Value)} {m : Machine}
  {t : Twin} {uses : Nat → Prop} {os os' : List Value} {is is' k k' : List Instr} {x : Eval α} {a : Activation}
  {post : Twin → α → List Value → Prop}

/-- Some steps that do nothing to the store, and then what is left to run. -/
theorem Follows.of_reaches (hr : ∀ line, ∃ line', (m.resume t.store os line is).Reaches host
      (m.resume t.store os' line' is'))
    (h : m.Follows host sugar level tail t uses os' is' x post k) :
    m.Follows host sugar level tail t uses os is x post k := by
  intro line ht
  obtain ⟨line', hreach⟩ := hr line
  exact (h line' (ht.reaches hreach)).of_reaches hreach

/-- Some steps that do nothing more when there is a value. -/
theorem Follows.then_reaches (h : m.Follows host sugar level tail t uses os is x post k)
    (hr : ∀ t' b os', post t' b os' → ∀ line, ∃ line', (m.resume t'.store os' line k).Reaches host
      (m.resume t'.store os' line' k')) : m.Follows host sugar level tail t uses os is x post k' := by
  intro line htrust
  have hx := h line htrust
  revert hx
  generalize x t.world = r
  intro hx
  match r, hx with
  | (.ok b, ω), ⟨t', os', line', hw, ht', ho, hp, hreach⟩ =>
    obtain ⟨line₂, hreach'⟩ := hr t' b os' hp line'
    exact ⟨t', os', line₂, hw, ht', ho, hp, hreach.trans hreach'⟩
  | (.error (.fault f trace), ω), h => exact h
  | (.error (.restart args), ω), h => exact h
  | (.error .cut, ω), h => exact h

variable {l : Links} {own : Nat → Prop} {gs : List Group} {g : Group} {env : Env} {b b' i j : Nat} {ps : List Pattern}
  {f : Env → Eval α}

/-- A group is entered before the code of what is in it. -/
theorem Follows.enter (h : t.Ready m.frame.scope own gs env b b' i j) {c : Nat}
    (hd : g.Declares l (patternsLeaves ps) b c) (hf : Fills own b c) (hc : c ≤ b') (hu : ∀ n, Twin.Used b c i i n → uses n)
    (hx : ∀ t' env', t'.store = t.store → t.Onto m.frame.scope (Twin.Used b c i i) t' →
      t'.Ready m.frame.scope own (g :: gs) env' c b' i j →
      t'.Binds l (patternsLeaves ps) env' m.frame.scope →
      m.Follows host sugar level tail t' uses os is (f env') post k) :
    m.Follows host sugar level tail t uses os is (openGroup ps env >>= f) post k := by
  obtain ⟨t', env', hopen, hs, ho, hready, hb⟩ := h.enter hd hf hc
  intro line htrust
  have hx' := hx t' env' hs ho hready hb line (hs ▸ htrust)
  rw [hs] at hx'
  refine Tracks.onto (ho.mono hu) ?_
  rw [Eval.bind_ok hopen]
  exact hx'

/-- A block with its group. -/
theorem Follows.block {r : Rules} {e : Block} (h : t.Ready m.frame.scope own gs env b b' i j)
    (hl : BlockLinks l e own gs b b')
    (hbody : ∀ {t : Twin} {gs : List Group} {env : Env} {c : Nat}, t.Ready m.frame.scope own gs env c b' i j →
      t.Binds l (patternsLeaves e.patterns) env m.frame.scope → BodyLinks l e own gs c b' →
      m.Follows host sugar level tail t (Twin.Used c b' i j) os is (r.body a env e) (Twin.Pushes os) k) :
    m.Follows host sugar level tail t (Twin.Used b b' i j) os is (r.block a env e) (Twin.Pushes os) k := by
  obtain ⟨g, c, hd, hf, hl⟩ := hl
  have hc := (BodyLinks.local e hl).1
  refine .enter h hd hf hc (by unfold Twin.Used; omega) fun t' env' _ _ h' hb => ?_
  exact (hbody h' hb hl).mono (Twin.Used.mono hd.le (Nat.le_refl b') (Nat.le_refl i) (Nat.le_refl j))

/-- The test of an arm is the test of its pattern. -/
theorem test_eq (ha : m.Acts a) (ht : t.Sound) (htrust : ∃ line, (m.resume t.store os line is).Trusted host sugar)
    {v w : Value} (hv : t.Alike v w) (p : Pattern) (line : Nat) :
    a.test sugar line p w t.world =
      a.orRaise line (p.shape.accepts (t.store.root m.frame.closure.home).findType v) t.world := by
  obtain ⟨line', htrust⟩ := htrust
  obtain ⟨space, hspace, hsame⟩ := ha.space ht htrust
  refine (Eval.bind_ok (x := a.home) rfl).trans ((Eval.bind_ok hspace).trans ?_)
  rw [Shape.accepts_stands ht.fits (ha.home_stands ht).findType hv,
    Pattern.accepts_eq (hsame builtins.cons (by simp)).2]

end

section

variable {host : Host} {sugar : Sugar} {level : Nat} {m : Machine} {a : Activation} {r : Rules} {l : Links}
  {own : Nat → Prop} {b b' i j line : Nat} {tail : Option (List Value)} {t : Twin} {gs : List Group} {env : Env}
  {os : List Value} {is k : List Instr} {allowTail : Bool}

mutual

theorem follows_expr (hf : r.Fit host sugar level) (ha : m.Acts a) (e : Expr) {allowTail : Bool} {gs : List Group}
    {env : Env} {b b' i j : Nat} {t : Twin} {tail : Option (List Value)} {os : List Value} {is k : List Instr}
    (h : t.Ready m.frame.scope own gs env b b' i j) (hl : ExprLinks l e own gs b b')
    (hc : ExprCode l e m.frame.closure.code allowTail i j is k) (htail : allowTail = true → tail = some os) :
    m.Follows host sugar (level + 1) tail t (Twin.Used b b' i j) os is (r.expr a env e) (Twin.Pushes os) k := by
  match e with
  | .call callee args line =>
    by_cases hm : callee.isMatchName = true
    · obtain ⟨scrutinee, cases, _, rfl⟩ := exprCode_match_args hm hc
      obtain ⟨mid, tests, bodies, done, hs, harms, -, hdone⟩ := (exprCode_match hm).mp hc
      unfold ExprLinks at hl
      obtain ⟨c, hcallee, hl⟩ := hl
      rw [if_pos hm] at hl
      unfold ChoiceLinks at hl
      obtain ⟨c', c'', hls, hla, hlast⟩ := hl
      have h₁ := (ExprLinks.local callee hcallee).1
      have h₂ := (ExprLinks.local scrutinee hls).1
      have h₃ := ExprCode.slots_le scrutinee hs
      have h₄ := ArmsCode.slots_le cases harms
      have h₅ : c' ≤ c'' := by
        unfold CasesLinks at hla
        exact (ArmsLinks.local cases hla).1
      rw [Rules.expr_match hm]
      refine (follows_expr hf ha scrutinee (h.sub h₁ (by omega) (Nat.le_refl i) h₄) hls hs nofun).seq
        (Twin.Used.mono h₁ (by omega) (Nat.le_refl i) h₄) fun t' w os' ht' ho ⟨v, hos, hv⟩ => ?_
      subst hos
      unfold CasesLinks at hla
      have h' := h.after ht' ho c' c'' mid j (by omega) hlast h₃ (Nat.le_refl j) (by omega)
        (.inl (Nat.le_refl c'))
      exact (follows_arms hf ha cases h' hv hla harms hdone htail).mono
        (Twin.Used.mono (by omega) hlast h₃ (Nat.le_refl j))
    · unfold ExprLinks at hl
      obtain ⟨c, hcallee, hl⟩ := hl
      rw [if_neg hm] at hl
      have h₁ := (ExprLinks.local callee hcallee).1
      have h₂ := (ArgsLinks.local args hl).1
      by_cases hs : ∃ selfLine, callee = .self selfLine
      · obtain ⟨selfLine, rfl⟩ := hs
        obtain ⟨hallow, hargs⟩ := exprCode_self.mp hc
        rw [Rules.expr_self]
        refine (follows_exprs hf ha args (h.sub h₁ (Nat.le_refl b') (Nat.le_refl i) (Nat.le_refl j)) hl hargs).seq
          (Twin.Used.mono h₁ (Nat.le_refl b') (Nat.le_refl i) (Nat.le_refl j))
          fun t' ws os' ht' ho ⟨vs, hos, hall, hlen⟩ => ?_
        subst hos
        have hlen' : ws.length = args.length := hall.length_eq.symm.trans hlen
        split
        · rename_i harity
          intro line' htrust
          refine ⟨os, t', vs, line', line, k, htail hallow, rfl, ht', .refl _ _ _, hall, ?_, ?_⟩
          · rw [ha.arity, ← harity, hlen, hlen']
          · rw [hlen]
            exact .refl _
        · rename_i harity
          rw [hlen', ← ha.arity] at harity
          have hs : (m.resume t'.store (vs ++ os) line k).perform host (.tailCall args.length) =
              .raised (m.resume t'.store (vs ++ os) line k) .partialTailCall := by
            show (m.resume t'.store (vs ++ os) line k).tailCall args.length = _
            unfold tailCall
            rw [resume_closure, if_neg (Ne.symm harity)]
            rfl
          exact .fault ha ht' rfl hs
      · have hm' : callee.isMatchName = false := by simpa using hm
        obtain ⟨mid, start, hargs, hcode⟩ := (exprCode_call hm' (not_exists.mp hs)).mp hc
        have h₃ := ArgsCode.slots_le args hargs
        have h₄ := ExprCode.slots_le callee hcode
        rw [Rules.expr_call hm' (not_exists.mp hs)]
        refine (follows_exprs hf ha args (h.sub h₁ (Nat.le_refl b') (Nat.le_refl i) h₄) hl hargs).seq
          (Twin.Used.mono h₁ (Nat.le_refl b') (Nat.le_refl i) h₄) fun t' ws os' ht' ho ⟨vs, hos, hall, hlen⟩ => ?_
        subst hos
        have h' := h.after ht' ho b c mid j (Nat.le_refl b) h₂ h₃ (Nat.le_refl j)
          (by omega) (.inr (Nat.le_refl c))
        refine (follows_expr hf ha callee h' hcallee hcode nofun).seq
          (Twin.Used.mono (Nat.le_refl b) h₂ h₃ (Nat.le_refl j)) fun t₂ w os₂ ht₂ ho₂ ⟨v, hos, hv⟩ => ?_
        subst hos
        rw [← hlen]
        exact follows_call hf ha ht₂ hv (Twin.AllAlike.onto hall ht' ho₂)
  | .function params body line =>
    obtain ⟨havoid, own', hl⟩ := exprLinks_function.mp hl
    unfold ExprCode at hc
    obtain ⟨unit, start, hpc, hbc, rfl⟩ := hc
    unfold Rules.expr
    exact follows_make ha h havoid hl hpc hbc
  | .list elements line =>
    have hl' : ElementsLinks l elements own gs b b' := by
      unfold ExprLinks at hl
      exact hl
    have hc' := hc
    unfold ExprCode at hc'
    by_cases hp : allPure elements = true
    · rw [if_pos hp] at hc'
      obtain ⟨start, rfl, hpure⟩ := hc'
      by_cases hs : sugar = .named
      · unfold Rules.expr
        rw [if_pos ⟨hf.same.trans hs, hp⟩, hf.same]
        refine (follows_readSugar ha h.sound (c := builtins.empty) (by simp)).seq (u := Twin.Used b b i i)
          (by unfold Twin.Used; omega) fun t' x os' ht' ho ⟨u, hos, hu⟩ => ?_
        subst hos
        exact follows_inFront hf ha elements (h.after ht' ho b b' i j (Nat.le_refl b) (Nat.le_refl b') (Nat.le_refl i)
          (Nat.le_refl j) (by omega) (.inl (Nat.le_refl b))) hu hl' hpure
      · have hbuiltIn : sugar = .builtIn := by
          revert hs
          cases sugar <;> simp
        exact follows_pure hf.same hbuiltIn ha hp h hl hc
    · rw [if_neg hp] at hc'
      obtain ⟨slots, hitems⟩ := hc'
      unfold Rules.expr
      rw [if_neg fun h => hp h.2]
      refine (follows_blocks hf ha elements h hl' hitems).bind fun t' ws os' ht' ho ⟨hos, hholds⟩ => ?_
      subst hos
      have hs := Nat.lt_of_lt_of_le h.scope ho.scopes
      rw [hf.same]
      refine (follows_readSugar ha ht' (c := builtins.empty) (by simp)).seq (u := Twin.Unused) (fun _ => False.elim)
        fun t₂ x os₂ ht₂ ho₂ ⟨u, hos, hu⟩ => ?_
      subst hos
      exact (follows_consAll hf ha (Nat.lt_of_lt_of_le hs ho₂.scopes) ht₂ hu
        (hholds.onto ht' ho₂ hs fun _ _ => id)).mono fun _ => False.elim
  | .literal value line =>
    unfold ExprCode at hc
    obtain ⟨-, rfl⟩ := hc
    unfold Rules.expr
    rw [hf.same]
    exact follows_literal ha h.sound value
  | .name n =>
    unfold ExprCode at hc
    obtain ⟨-, rfl⟩ := hc
    unfold ExprLinks at hl
    unfold Rules.expr
    exact follows_readName ha h.sound h.reads hl.2
  | .self _ =>
    unfold ExprCode at hc
    exact hc.elim
termination_by sizeOf e

theorem follows_exprs (hf : r.Fit host sugar level) (ha : m.Acts a) (es : List Expr) {gs : List Group} {env : Env}
    {b b' i j : Nat} {t : Twin} {tail : Option (List Value)} {os : List Value} {is k : List Instr}
    (h : t.Ready m.frame.scope own gs env b b' i j) (hl : ArgsLinks l es own gs b b')
    (hc : ArgsCode l es m.frame.closure.code i j is k) :
    m.Follows host sugar (level + 1) tail t (Twin.Used b b' i j) os is (r.exprs a env es)
      (Twin.PushesAll es.length os) k := by
  match es with
  | [] =>
    unfold ArgsCode at hc
    obtain ⟨-, rfl⟩ := hc
    unfold Rules.exprs
    exact .pure h.sound ⟨[], rfl, .nil, rfl⟩
  | e :: es =>
    unfold ArgsCode at hc
    obtain ⟨mid, start, hes, he⟩ := hc
    unfold ArgsLinks at hl
    obtain ⟨c, hle, hles⟩ := hl
    have h₁ := (ExprLinks.local e hle).1
    have h₂ := (ArgsLinks.local es hles).1
    have h₃ := ArgsCode.slots_le es hes
    have h₄ := ExprCode.slots_le e he
    unfold Rules.exprs
    refine (follows_exprs hf ha es (h.sub h₁ (Nat.le_refl b') (Nat.le_refl i) h₄) hles hes).seq
      (Twin.Used.mono h₁ (Nat.le_refl b') (Nat.le_refl i) h₄) fun t' ws os' ht' ho ⟨vs, hos, hall, hlen⟩ => ?_
    subst hos
    have h' := h.after ht' ho b c mid j (Nat.le_refl b) h₂ h₃ (Nat.le_refl j)
      (by omega) (.inr (Nat.le_refl c))
    refine (follows_expr hf ha e h' hle he nofun).seq (Twin.Used.mono (Nat.le_refl b) h₂ h₃ (Nat.le_refl j))
      fun t₂ w os₂ ht₂ ho₂ ⟨v, hos, hv⟩ => ?_
    subst hos
    exact .pure ht₂ ⟨v :: vs, rfl, .cons hv (Twin.AllAlike.onto hall ht' ho₂), by rw [List.length_cons, hlen]; rfl⟩
termination_by sizeOf es

theorem follows_blocks (hf : r.Fit host sugar level) (ha : m.Acts a) (bs : List Block) {slots : List Slot} {line : Nat}
    {gs : List Group} {env : Env}
    {b b' i j : Nat} {t : Twin} {tail : Option (List Value)} {os : List Value} {is k : List Instr}
    (h : t.Ready m.frame.scope own gs env b b' i j) (hl : ElementsLinks l bs own gs b b')
    (hc : ItemsCode l bs m.frame.closure.code line slots i j is k) :
    m.Follows host sugar (level + 1) tail t (Twin.Used b b' i j) os is (r.blocks a env bs)
      (fun t' ws os' => os' = os ∧ t'.Holds m.frame.scope slots ws) k := by
  match bs with
  | [] =>
    unfold ItemsCode at hc
    obtain ⟨rfl, -, rfl⟩ := hc
    unfold Rules.blocks
    exact .pure h.sound ⟨rfl, .nil⟩
  | e :: bs =>
    unfold ItemsCode at hc
    obtain ⟨mid, start, rest, he, rfl, hbs⟩ := hc
    obtain ⟨c, hle, hlbs⟩ := elementsLinks_cons.mp hl
    have h₁ := hle.local.1
    have h₂ := (ElementsLinks.local bs hlbs).1
    have h₃ := BlockCode.slots_le e he
    have h₄ := ItemsCode.slots_le bs hbs
    rw [Rules.blocks_cons]
    refine (Follows.block (h.sub (Nat.le_refl b) h₂ (Nat.le_refl i) (by omega)) hle
      fun h hb hl => follows_body hf ha e h hb hl he nofun).seq
      (Twin.Used.mono (Nat.le_refl b) h₂ (Nat.le_refl i) (by omega)) fun t' w os' ht' ho ⟨v, hos, hv⟩ => ?_
    subst hos
    have h' := h.after ht' ho c b' mid j h₁ (Nat.le_refl b') h₃ (Nat.le_refl j)
      (by omega) (.inl (Nat.le_refl c))
    have hmid : t'.hidden mid := h'.items mid (Nat.le_refl mid) h₄
    have hsaved : t'.Onto m.frame.scope (Twin.Used b b mid (mid + 1)) (t'.saveItem m.frame.scope mid v) :=
      Twin.saveItem_onto (.inr ⟨Nat.le_refl mid, Nat.lt_succ_self mid⟩)
    have hs' := Twin.saveItem_sound (s := m.frame.scope) (v := v) ht' hmid
    refine .head (hsaved.mono (Twin.Used.mono (Nat.le_refl b) (by omega) h₃ h₄)) rfl rfl ?_
    refine (follows_blocks hf ha bs (h'.after hs' hsaved c b' (mid + 1) j (Nat.le_refl c) (Nat.le_refl b') (Nat.le_succ mid)
      (Nat.le_refl j) (by omega) (.inl h₁)) hlbs hbs).seq (Twin.Used.mono h₁ (Nat.le_refl b') (by omega) (Nat.le_refl j))
      fun t₂ ws os₂ ht₂ ho₂ ⟨hos, hholds⟩ => .pure ht₂ ⟨hos, ?_⟩
    have hplain : ¬ Twin.Used c b' (mid + 1) j mid := by
      rintro (hn | hn)
      · exact h'.clear.plain mid hn.1 hn.2 hmid
      · omega
    have hitem : Twin.Holds _ m.frame.scope [{ id := mid, name := itemName, line := e.value.line }] [_] :=
      (Twin.saveItem_holds ht' h'.scope hmid hv).onto hs' ho₂ (Nat.lt_of_lt_of_le h'.scope hsaved.scopes) (by simpa using hplain)
    exact .cons (List.forall₂_cons.mp hitem).1 hholds
termination_by sizeOf bs

theorem follows_inFront (hf : r.Fit host sugar level) (ha : m.Acts a) (bs : List Block) {line : Nat}
    {gs : List Group} {env : Env} {u x : Value}
    {b b' i j : Nat} {t : Twin} {tail : Option (List Value)} {os : List Value} {is k : List Instr}
    (h : t.Ready m.frame.scope own gs env b b' i j) (hu : t.Alike u x) (hl : ElementsLinks l bs own gs b b')
    (hc : PureCode l bs m.frame.closure.code line i j is k) :
    m.Follows host sugar (level + 1) tail t (Twin.Used b b' i j) (u :: os) is (r.inFront a env line bs x)
      (Twin.Pushes os) k := by
  match bs with
  | [] =>
    unfold PureCode at hc
    obtain ⟨-, rfl⟩ := hc
    unfold Rules.inFront
    exact .pure h.sound ⟨u, rfl, hu⟩
  | e :: bs =>
    unfold PureCode at hc
    obtain ⟨mid, start, hbs, he⟩ := hc
    obtain ⟨c, hle, hlbs⟩ := elementsLinks_cons.mp hl
    have h₁ := hle.local.1
    have h₂ := (ElementsLinks.local bs hlbs).1
    have h₃ := PureCode.slots_le bs hbs
    have h₄ := BlockCode.slots_le e he
    rw [Rules.inFront_cons]
    refine (follows_inFront hf ha bs (h.sub h₁ (Nat.le_refl b') (Nat.le_refl i) h₄) hu hlbs hbs).seq
      (Twin.Used.mono h₁ (Nat.le_refl b') (Nat.le_refl i) h₄) fun t' rest os' ht' ho ⟨u', hos, hu'⟩ => ?_
    subst hos
    have h' := h.after ht' ho b c mid j (Nat.le_refl b) h₂ h₃ (Nat.le_refl j)
      (by omega) (.inr (Nat.le_refl c))
    refine (Follows.block h' hle fun h hb hl => follows_body hf ha e h hb hl he nofun).seq
      (Twin.Used.mono (Nat.le_refl b) h₂ h₃ (Nat.le_refl j)) fun t₂ w os₂ ht₂ ho₂ ⟨v, hos, hv⟩ => ?_
    subst hos
    exact follows_cons hf ha ht₂ hv (Twin.Alike.onto hu' ht' ho₂)
termination_by sizeOf bs

theorem follows_arms (hf : r.Fit host sugar level) (ha : m.Acts a) (cases : List Block) {done behind line : Nat}
    {bodies : List Instr} {allowTail : Bool} {gs : List Group} {env : Env} {v w : Value}
    {b b' i j : Nat} {t : Twin} {tail : Option (List Value)} {os : List Value} {is k : List Instr}
    (h : t.Ready m.frame.scope own gs env b b' i j) (hv : t.Alike v w) (hl : ArmsLinks l cases own gs b b')
    (hc : ArmsCode l cases m.frame.closure.code done allowTail behind i j is (.mk line (.fail noMatch) :: bodies))
    (hdone : m.frame.closure.code.from? done = some (.mk line .nothing :: k)) (htail : allowTail = true → tail = some os) :
    m.Follows host sugar (level + 1) tail t (Twin.Used b b' i j) (v :: os) is (r.arms a env line w cases)
      (Twin.Pushes os) k := by
  match cases with
  | [] =>
    unfold ArmsCode at hc
    obtain ⟨-, rfl⟩ := hc
    unfold Rules.arms
    exact .fault ha h.sound rfl rfl
  | e :: cases =>
    obtain ⟨p, body, armLine, rfl⟩ := armsCode_cons hc
    unfold ArmsCode at hc
    obtain ⟨label, mid, start, bodyStart, bound, rest, rfl, hlabel, hp, hbody, -, hcases⟩ := hc
    obtain ⟨c, hlf, hlc⟩ := armsLinks_cons.mp hl
    have h₁ := hlf.local.1
    have h₂ := (ArmsLinks.local cases hlc).1
    have h₃ := BlockCode.slots_le body hbody
    have h₄ := ArmsCode.slots_le cases hcases
    obtain ⟨g₁, g₂, m₁, m₂, hd₁, hd₂, hfills, hlb⟩ := hlf
    have h₅ := hd₁.le
    have h₆ := hd₂.le
    have h₇ := (BodyLinks.local body hlb).1
    refine .of_trusted fun line' htrust => ?_
    have htest := test_eq ha h.sound ⟨_, htrust⟩ hv p armLine
    rw [Rules.arms_cons, hf.same]
    cases hacc : p.shape.accepts (t.store.root m.frame.closure.home).findType v with
    | error f =>
      refine .head (.refl _ _ t) rfl rfl (.fault ha h.sound ?_ (perform_jumpIf_error hacc))
      exact Eval.bind_error (htest.trans (by rw [hacc]; rfl))
    | ok yes =>
      rw [hacc] at htest
      cases yes with
      | false =>
        refine .of_reaches (fun _ => ⟨_, _, walk_test_no hacc⟩) (.congr ?_ (Eval.bind_ok htest))
        exact (follows_arms hf ha cases (h.sub h₁ (Nat.le_refl b') h₃ (Nat.le_refl j)) hv hlc hcases hdone htail).mono
          (Twin.Used.mono h₁ (Nat.le_refl b') h₃ (Nat.le_refl j))
      | true =>
        refine .of_reaches (fun _ => ⟨_, _, walk_test_yes hacc hlabel⟩) (.congr ?_ (Eval.bind_ok htest))
        have hfills' : Fills own b m₁ := fun n hn hn' => hfills n hn (by omega)
        refine Follows.then_reaches (k := .mk armLine (.jump done) :: rest) ?_ ?_
        · refine .enter (h.silent (g := []) fun _ => rfl) hd₁ hfills' (by omega) (by unfold Twin.Used; omega)
            fun t' env' hs ho h' hb => ?_
          refine (follows_bind ha unpublished p h'.sound hb.cons.1 (Twin.Alike.onto hv h.sound ho) hp).seq
            (u := Twin.Unused) (fun _ => False.elim) fun t₂ _ os₂ ht₂ ho₂ hos => ?_
          cases hos
          refine (Follows.block ((h'.keep ht₂ ho₂).sub (Nat.le_refl m₁) (by omega) (Nat.le_refl i) (by omega)) 
            ⟨g₂, m₂, hd₂, fun n hn hn' => hfills n (by omega) hn', hlb⟩
            fun h hb hl => follows_body hf ha body h hb hl hbody htail).mono (Twin.Used.mono (by omega) h₂ (Nat.le_refl i) h₄)
        · intro t' _ os' _ line'
          have hjump : (m.resume t'.store os' armLine rest).perform host (.jump done) =
              .running (m.resume t'.store os' armLine (.mk line .nothing :: k)) := by
            show jump _ done = _
            rw [jump, resume_closure, hdone]
            rfl
          exact ⟨line, .head (step_resume.trans hjump) (.of_step step_resume)⟩
termination_by sizeOf cases

theorem follows_body (hf : r.Fit host sugar level) (ha : m.Acts a) (e : Block) {allowTail : Bool} {gs : List Group}
    {env : Env} {b b' i j : Nat} {t : Twin} {tail : Option (List Value)} {os : List Value} {is k : List Instr}
    (h : t.Ready m.frame.scope own gs env b b' i j) (hb : t.Binds l (patternsLeaves e.patterns) env m.frame.scope)
    (hl : BodyLinks l e own gs b b') (hc : BlockCode l e m.frame.closure.code allowTail i j is k)
    (htail : allowTail = true → tail = some os) :
    m.Follows host sugar (level + 1) tail t (Twin.Used b b' i j) os is (r.body a env e) (Twin.Pushes os) k := by
  match e with
  | .result e =>
    unfold BodyLinks at hl
    unfold BlockCode at hc
    unfold Rules.body
    exact follows_expr hf ha e h hl hc htail
  | .bind p value isPublic rest =>
    unfold BlockCode at hc
    obtain ⟨mid, start, bound, hv, hp, hrest⟩ := hc
    obtain ⟨c, hlv, hlr⟩ := bodyLinks_bind.mp hl
    have h₁ := hlv.local.1
    have h₂ := (BodyLinks.local rest hlr).1
    have h₃ := BlockCode.slots_le value hv
    have h₄ := BlockCode.slots_le rest hrest
    obtain ⟨hbp, hbr⟩ := hb.cons
    rw [Rules.body_bind, hf.same]
    refine (Follows.block (h.sub (Nat.le_refl b) h₂ (Nat.le_refl i) h₄) hlv
      fun h hb hl => follows_body hf ha value h hb hl hv nofun).seq
      (Twin.Used.mono (Nat.le_refl b) h₂ (Nat.le_refl i) h₄) fun t' w os' ht' ho ⟨v, hos, hvw⟩ => ?_
    subst hos
    have h' := h.after ht' ho c b' mid j h₁ (Nat.le_refl b') h₃ (Nat.le_refl j)
      (by omega) (.inl (Nat.le_refl c))
    refine (follows_bind ha unpublished p ht' (hbp.onto ho) hvw hp).seq (u := Twin.Unused)
      (fun _ => False.elim) fun t₂ _ os₂ ht₂ ho₂ hos => ?_
    cases hos
    exact (follows_body hf ha rest (h'.keep ht₂ ho₂) ((hbr.onto ho).onto ho₂) hlr hrest htail).mono
      (Twin.Used.mono h₁ (Nat.le_refl b') h₃ (Nat.le_refl j))
termination_by sizeOf e

end

end

end Machine

end MatchLang
