import MatchLang.Proofs.Lists.Coherence
import MatchLang.Proofs.Simulation.Follows

/-! Patterns. A test on the one side says what it says on the other, and the names of a pattern get the parts of the
value, from the left, up to the first part that does not fit. -/

namespace MatchLang

section

variable {find lists : List String → Except Fault DataType}

theorem Literal.accepts_eq (value : Literal) (v : Value) : value.shape.accepts find v = .ok (value.fits v) := by
  cases value <;> simp only [Literal.shape, Shape.accepts, Literal.fits]

mutual

/-- A pattern is tested as its shape, where the type of lists is the one that is found. -/
theorem Pattern.accepts_eq (h : lists [consName] = find [consName]) :
    (p : Pattern) → (v : Value) → p.shape.accepts find v = p.fits find lists v
  | .wildcard, _ | .name _ _ _, _ => by simp only [Pattern.shape, Shape.accepts, Pattern.fits]
  | .literal value _, v => by rw [Pattern.shape, Literal.accepts_eq, Pattern.fits]
  | .list items, v => by rw [Pattern.shape, listShape_accepts_eq h items v, Pattern.fits]
  | .type n params, v => by
    rw [Pattern.shape, Shape.accepts, Pattern.fits]
    cases find n.parts with
    | error f => rfl
    | ok t =>
      cases t with
      | case c =>
        cases v with
        | record d fields =>
          simp only [length_patternShapes, patternShapes_accept_eq h params fields]
        | _ => rfl
      | number | text | function | family =>
        match params with
        | [] | _ :: _ :: _ => rfl
        | [p] => simp only [patternShapes, Pattern.accepts_eq h p v]

theorem listShape_accepts_eq (h : lists [consName] = find [consName]) :
    (ps : List Pattern) → (v : Value) → (listShape ps).accepts find v = itemsFit find lists ps v
  | [], v => by simp only [listShape, Shape.accepts, itemsFit]
  | p :: ps, v => by
    rw [listShape, Shape.accepts, itemsFit, h]
    cases find [consName] with
    | error f => rfl
    | ok t =>
      cases t with
      | case c =>
        cases v with
        | record d fields =>
          match fields with
          | [] | [_] | _ :: _ :: _ :: _ => simp
          | [head, tail] =>
            simp only [List.length_cons, List.length_nil, beq_self_eq_true, Bool.and_true, acceptsAll,
              Pattern.accepts_eq h p head, listShape_accepts_eq h ps tail]
            split
            · rcases p.fits find lists head with f | (_ | _)
              · rfl
              · rfl
              · rcases itemsFit find lists ps tail with f | (_ | _) <;> rfl
            · rfl
        | _ => rfl
      | number | text | function | family => rfl

theorem patternShapes_accept_eq (h : lists [consName] = find [consName]) :
    (ps : List Pattern) → (vs : List Value) → acceptsAll find (patternShapes ps) vs = patternsFit find lists ps vs
  | [], vs => by simp only [patternShapes, acceptsAll, patternsFit]
  | _ :: _, [] => by simp only [patternShapes, acceptsAll, patternsFit]
  | p :: ps, v :: vs => by
    rw [patternShapes, acceptsAll, patternsFit]
    rcases hp : p.fits find lists v with f | (_ | _) <;>
      simp only [Pattern.accepts_eq h p v, patternShapes_accept_eq h ps vs, hp]

end

end

/-- What a binding leaves on the stack. -/
def Twin.Leaves (os : List Value) (_ : Twin) (_ : Unit) (os' : List Value) : Prop :=
  os = os'

/-- What is left on the stack when a value has been taken apart. -/
def Twin.PushesAll (n : Nat) (os : List Value) (t : Twin) (ws os' : List Value) : Prop :=
  ∃ vs, os' = vs ++ os ∧ t.AllAlike vs ws ∧ vs.length = n

theorem takeApart_congr {find find' : List String → Except Fault DataType} {path : List String} {n : Nat} {v : Value}
    (h : find path = find' path) : takeApart find path n v = takeApart find' path n v := by
  rw [takeApart, takeApart, h]

namespace Machine

variable {host : Host} {sugar : Sugar} {level : Nat} {tail : Option (List Value)} {m : Machine} {a : Activation}
  {t : Twin} {uses : Nat → Prop} {os os' : List Value} {is k : List Instr} {line n : Nat} {v w : Value} {l : Links} {env : Env}
  {publishAt : Option (List String)}

/-- A value is taken apart as a value of a type of the module. -/
theorem follows_decompose (ha : m.Acts a) (ht : t.Sound) (hv : t.Alike v w) {x : Eval (List Value)} {path : List String}
    (hx : x t.world = a.orRaise line (takeApart (t.world.root a.self.home).findType path n w) t.world) :
    m.Follows host sugar level tail t uses (v :: os) (.mk line (.decompose path n) :: k) x (Twin.PushesAll n os) k := by
  refine .of_trusted fun line' htrust => .concord ha ht
    (takeApart_stands ht.fits (ha.home_stands ht).findType hv path) (fun vs ws hvs hws hall => ?_) (fun f hf => ?_)
    fun f hf => ⟨_, _, perform_decompose_error hf⟩
  · obtain ⟨κ, h, hok⟩ := htrust.ok
    have hlen := (takeApart_eq_ok (hok.store.roots _).findType hok.operands.1 hvs).1
    rw [hws] at hx
    exact .step hx ht (.refl _ _ _) ⟨vs, rfl, hall, hlen⟩ (perform_decompose_ok hvs)
  · rw [hx, hf]
    rfl

/-- A value is taken apart as a list. -/
theorem follows_listApart (ha : m.Acts a) (ht : t.Sound) (hv : t.Alike v w) {c : Case}
    (hc : c ∈ [builtins.cons, builtins.empty, builtins.unit]) :
    m.Follows host sugar level tail t uses (v :: os) (.mk line (.decompose [c.name] n) :: k)
      (a.listApart sugar line c.name n w) (Twin.PushesAll n os) k := by
  refine .of_trusted fun line' htrust => follows_decompose ha ht hv ?_
  obtain ⟨space, hspace, hsame⟩ := ha.space ht htrust
  refine (Eval.bind_ok hspace).trans ?_
  rw [takeApart_congr (hsame c hc).2]

/-- What literals there are, is told by the built-in cases. -/
theorem fits_eq (ht : t.Sound) (hv : t.Alike v w) (value : Literal) : value.fits v = value.fits w := by
  have hagree : TypesAgree t.numbers (fun path => .error (.typeNotFound (dotted path)))
      (fun path => .error (.typeNotFound (dotted path))) := fun _ => .error _
  have h := Shape.accepts_stands ht.fits hagree hv value.shape
  rw [Literal.accepts_eq, Literal.accepts_eq] at h
  exact Except.ok.inj h

/-- The root of the running module is changed, or a fault comes up. -/
theorem follows_declare {t' : Twin} {op : Op} {x : Eval Unit} (change change' : Namespace → Except Fault Namespace)
    (ha : m.Acts a) (hr : m.task.root = m.frame.closure.home) (ht' : t'.Sound) (ho : t.Onto m.frame.scope uses t')
    (hx : x t.world = a.declare line change' t'.world)
    (hs : (m.resume t.store os line k).perform host op = (m.resume t'.store os' line k).declare change)
    (hc : Concord (Namespace.Stands t'.numbers t'.Made) (change (t'.store.root m.frame.closure.home))
      (change' (t'.world.root a.self.home))) :
    m.Follows host sugar level tail t uses os (.mk line op :: k) x (Twin.Leaves os') k := by
  have hx' : x t.world = (a.orRaise line (change' (t'.world.root a.self.home)) >>= fun after =>
      Eval.change (·.setRoot a.self.home after)) t'.world := hx
  rcases hc.split with ⟨ns, ns', hns, hns', hlike⟩ | ⟨f, hf, hf'⟩
  · have hset : (t'.setRoot m.task.root ns ns').Sound := Twin.setRoot_sound ht' hlike
    refine .step (b := ()) ?_ hset (ho.trans Twin.setRoot_onto) rfl (hs.trans (declare_eq_ok (hr ▸ hns)))
    rw [hx', Eval.bind_ok (x := a.orRaise line _) (by rw [hns']; rfl), hr, ha.home]
    rfl
  · refine .fault ha ht' ?_ (hs.trans (declare_eq_error (hr ▸ hf)))
    rw [hx', Eval.bind_error (x := a.orRaise line _) (by rw [hf']; rfl)]

/-- A value gets a name in the root of the running module. -/
theorem follows_publish (ha : m.Acts a) (hr : m.task.root = m.frame.closure.home) (ht : t.Sound) (hv : t.Alike v w)
    {path : List String} {name : String} :
    m.Follows host sugar level tail t uses (v :: os) (.mk line (.publish name path) :: k)
      (a.publish line path name w) (Twin.Leaves os) k :=
  follows_declare (publishIn · path name v) _ ha hr ht (.refl _ _ _) rfl rfl ((ha.home_stands ht).publishIn hv)

/-- The cell of a name is assigned to. -/
theorem follows_assign (ht : t.Sound) (hv : t.Alike v w) {slot : Slot} {cell : Nat} (hc : cell < t.world.cells.size)
    (hp : t.place cell = (m.frame.scope, slot.id)) :
    m.Follows host sugar level tail t uses (v :: os) (.mk line (.saveLocal slot) :: k)
      (Eval.change (·.assign cell w)) (Twin.Leaves os) k := by
  refine .step (b := ()) ?_ (Twin.save_sound ht hc hv) (Twin.save_onto ht hc) rfl ?_
  · rfl
  · rw [Twin.save, hp]
    rfl

theorem follows_bindName (ha : m.Acts a) (hr : publishAt.isSome → m.task.root = m.frame.closure.home) (ht : t.Sound)
    (hv : t.Alike v w) {name : String} {slot : Slot} {cell : Nat} (hcell : env.lookup name = some cell)
    (hc : cell < t.world.cells.size) (hp : t.place cell = (m.frame.scope, slot.id)) :
    m.Follows host sugar level tail t uses (v :: os) (leafCode publishAt name line slot ++ k)
      (a.bindName env publishAt name line w) (Twin.Leaves os) k := by
  unfold Activation.bindName
  rw [hcell]
  cases publishAt with
  | none => exact (follows_assign ht hv hc hp).congr (Eval.bind_ok rfl)
  | some path =>
    have hpublish : m.Follows host sugar level tail t uses (v :: v :: os)
        (.mk line (.publish name path) :: .mk line (.saveLocal slot) :: k) (a.publish line path name w)
        (Twin.Leaves (v :: os)) (.mk line (.saveLocal slot) :: k) := follows_publish ha (hr rfl) ht hv
    refine .head (.refl _ _ _) rfl rfl (hpublish.bind fun t' _ os' ht' ho hos => ?_)
    cases hos
    exact follows_assign ht' (Twin.Alike.onto hv ht ho) (Nat.lt_of_lt_of_le hc ho.cells) ((ho.place cell hc).trans hp)

/-- Where names stay private, nothing is asked of the root. -/
theorem unpublished {P : Prop} (h : (none : Option (List String)).isSome) : P :=
  absurd h Bool.false_ne_true

mutual

/-- A value is taken apart, and the names of the pattern get its parts. -/
theorem follows_bind (ha : m.Acts a) (hr : publishAt.isSome → m.task.root = m.frame.closure.home) :
    (p : Pattern) → {line : Nat} → {t : Twin} → {os : List Value} → {is k : List Instr} → {v w : Value} → t.Sound →
      t.Binds l p.leaves env m.frame.scope → t.Alike v w → PatternCode l publishAt p line is k →
      m.Follows host sugar level tail t uses (v :: os) is (a.bind sugar env publishAt p line w) (Twin.Leaves os) k
  | .wildcard, line, t, os, is, k, v, w, ht, hb, hv, hc => by
    unfold PatternCode at hc
    subst hc
    exact .step rfl ht (.refl _ _ _) rfl rfl
  | .name id name nameLine, line, t, os, is, k, v, w, ht, hb, hv, hc => by
    unfold PatternCode at hc
    obtain ⟨slot, hl, rfl⟩ := hc
    obtain ⟨slot', cell, hl', hcell, hlt, hp⟩ := hb ⟨id, name, nameLine⟩ (by simp [Pattern.leaves])
    cases hl'.symm.trans hl
    exact follows_bindName ha hr ht hv hcell hlt hp
  | .literal value literalLine, line, t, os, is, k, v, w, ht, hb, hv, hc => by
    unfold PatternCode at hc
    subst hc
    unfold Activation.bind
    have haccepts : value.shape.accepts (t.store.root m.frame.closure.home).findType v = .ok (value.fits w) := by
      rw [Literal.accepts_eq, fits_eq ht hv]
    have hs : (m.resume t.store (v :: os) literalLine k).perform host (.require value.shape) = _ :=
      perform_require_ok haccepts
    split
    · rename_i hfits
      rw [hfits] at hs
      exact .step rfl ht (.refl _ _ _) rfl hs
    · rename_i hfits
      rw [Bool.not_eq_true] at hfits
      rw [hfits] at hs
      exact .fault ha ht rfl hs
  | .list items, line, t, os, is, k, v, w, ht, hb, hv, hc => by
    unfold PatternCode at hc
    unfold Activation.bind
    exact follows_bindItems ha hr items ht (by simpa [Pattern.leaves] using hb) hv hc
  | .type n params, line, t, os, is, k, v, w, ht, hb, hv, hc => by
    unfold PatternCode at hc
    obtain ⟨r, rfl, hc⟩ := hc
    unfold Activation.bind
    refine (follows_decompose ha ht hv rfl).bind fun t' ws os' ht' ho ⟨vs, hos, hall, hlen⟩ => ?_
    subst hos
    exact follows_bindAll ha hr params ht' (Twin.Binds.onto (by simpa [Pattern.leaves] using hb) ho) hall hlen hc

theorem follows_bindItems (ha : m.Acts a) (hr : publishAt.isSome → m.task.root = m.frame.closure.home) :
    (ps : List Pattern) → {line : Nat} → {t : Twin} → {os : List Value} → {is k : List Instr} → {v w : Value} → t.Sound →
      t.Binds l (patternsLeaves ps) env m.frame.scope → t.Alike v w → ItemPatternsCode l publishAt ps line is k →
      m.Follows host sugar level tail t uses (v :: os) is (a.bindItems sugar env publishAt ps line w) (Twin.Leaves os) k
  | [], line, t, os, is, k, v, w, ht, hb, hv, hc => by
    unfold ItemPatternsCode at hc
    subst hc
    unfold Activation.bindItems
    refine (follows_listApart ha ht hv (c := builtins.empty) (by simp)).bind
      fun t' ws os' ht' ho ⟨vs, hos, hall, hlen⟩ => ?_
    subst hos
    rw [List.length_eq_zero_iff.mp hlen]
    exact .pure ht' rfl
  | p :: ps, line, t, os, is, k, v, w, ht, hb, hv, hc => by
    unfold ItemPatternsCode at hc
    obtain ⟨r, r', rfl, hp, hps⟩ := hc
    unfold Activation.bindItems
    refine (follows_listApart ha ht hv (c := builtins.cons) (by simp)).bind
      fun t' ws os' ht' ho ⟨vs, hos, hall, hlen⟩ => ?_
    subst hos
    match vs, ws, hlen, hall with
    | [head, tail], [head', tail'], _, .cons hh (.cons htl .nil) =>
      have hb' : t'.Binds l (p.leaves ++ patternsLeaves ps) env m.frame.scope := Twin.Binds.onto hb ho
      refine (follows_bind ha hr p ht' (hb'.sub fun _ hx => List.mem_append_left _ hx) hh hp).bind
        fun t₂ _ os₂ ht₂ ho₂ hos => ?_
      cases hos
      exact follows_bindItems ha hr ps ht₂ ((hb'.sub fun _ hx => List.mem_append_right _ hx).onto ho₂)
        (Twin.Alike.onto htl ht' ho₂) hps

theorem follows_bindAll (ha : m.Acts a) (hr : publishAt.isSome → m.task.root = m.frame.closure.home) :
    (ps : List Pattern) → {line : Nat} → {t : Twin} → {os : List Value} → {is k : List Instr} → {vs ws : List Value} →
      t.Sound → t.Binds l (patternsLeaves ps) env m.frame.scope → t.AllAlike vs ws → vs.length = ps.length →
      PatternsCode l publishAt ps line is k →
      m.Follows host sugar level tail t uses (vs ++ os) is (a.bindAll sugar env publishAt ps line ws) (Twin.Leaves os) k
  | [], line, t, os, is, k, vs, ws, ht, hb, hall, hlen, hc => by
    unfold PatternsCode at hc
    subst hc
    rw [List.length_eq_zero_iff.mp hlen]
    exact .pure ht rfl
  | p :: ps, line, t, os, is, k, v :: vs, w :: ws, ht, hb, .cons hv hall, hlen, hc => by
    unfold PatternsCode at hc
    obtain ⟨r, hp, hps⟩ := hc
    unfold Activation.bindAll
    have hb' : t.Binds l (p.leaves ++ patternsLeaves ps) env m.frame.scope := hb
    refine (follows_bind ha hr p ht (hb'.sub fun _ hx => List.mem_append_left _ hx) hv hp).bind
      fun t' _ os' ht' ho hos => ?_
    cases hos
    exact follows_bindAll ha hr ps ht' ((hb'.sub fun _ hx => List.mem_append_right _ hx).onto ho)
      (Twin.AllAlike.onto hall ht ho) (Nat.succ.inj hlen) hps

end

end Machine

end MatchLang
