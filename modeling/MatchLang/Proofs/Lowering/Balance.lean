import MatchLang.Proofs.Code.Balance
import MatchLang.Proofs.Lowering.Compiled
import MatchLang.Proofs.Lowering.Slots

/-! The code of every form of the syntax is balanced: a pattern takes one operand, an expression and a
block leave one, and declarations leave none. Only what follows the code has to be balanced for that. -/

namespace MatchLang

/-- The slots of names and of the list items to come are among those that a stretch may save to. -/
structure Stretch.Saves (s : Stretch) (l : Links) (i : Nat) : Prop where
  names : ∀ id slot, l.get? id = some slot → s.saves slot.id
  items : ∀ n, i ≤ n → s.saves n

theorem Stretch.Saves.mono {s : Stretch} {l : Links} {i j : Nat} (h : s.Saves l i) (hij : i ≤ j) :
    s.Saves l j :=
  ⟨h.names, fun n hn => h.items n (Nat.le_trans hij hn)⟩

theorem Stretch.body_saves (code : Code) (l : Links) (i : Nat) : (Stretch.body code).Saves l i :=
  ⟨fun _ _ _ => trivial, fun _ _ => trivial⟩

section

variable {s : Stretch} {l : Links} {publishAt : Option (List String)} {ps : List (List String)}

theorem nothing_published :
    ∀ path, (none : Option (List String)) = some path → path ∈ ps := nofun

theorem leafCode_balanced {d line : Nat} {name : String} {slot : Slot} {k : List Instr}
    (hs : s.saves slot.id) (hp : ∀ path, publishAt = some path → path ∈ ps)
    (hk : Balanced s d ps k) : Balanced s (d + 1) ps (leafCode publishAt name line slot ++ k) := by
  cases publishAt with
  | none => exact .saveLocal hs hk
  | some path => exact .duplicate (.publish (hp path rfl) (.saveLocal hs hk))

mutual

theorem PatternCode.balanced (hs : ∀ id slot, l.get? id = some slot → s.saves slot.id)
    (hp : ∀ path, publishAt = some path → path ∈ ps) (p : Pattern) {line d : Nat}
    {is k : List Instr} (h : PatternCode l publishAt p line is k) (hk : Balanced s d ps k) :
    Balanced s (d + 1) ps is := by
  match p with
  | .wildcard =>
    rw [PatternCode] at h
    exact h ▸ .pop hk
  | .name id _ _ =>
    obtain ⟨slot, hl, rfl⟩ := h
    exact leafCode_balanced (hs id slot hl) hp hk
  | .literal _ _ =>
    rw [PatternCode] at h
    exact h ▸ .require hk
  | .list items => exact ItemPatternsCode.balanced hs hp items h hk
  | .type _ params =>
    obtain ⟨r, rfl, hr⟩ := h
    exact .decompose (PatternsCode.balanced hs hp params hr hk)
termination_by sizeOf p

theorem ItemPatternsCode.balanced (hs : ∀ id slot, l.get? id = some slot → s.saves slot.id)
    (hp : ∀ path, publishAt = some path → path ∈ ps) (items : List Pattern) {line d : Nat}
    {is k : List Instr} (h : ItemPatternsCode l publishAt items line is k)
    (hk : Balanced s d ps k) : Balanced s (d + 1) ps is := by
  match items with
  | [] =>
    rw [ItemPatternsCode] at h
    exact h ▸ .decompose hk
  | p :: items =>
    obtain ⟨r, r', rfl, hc, hi⟩ := h
    have hr' := ItemPatternsCode.balanced hs hp items hi hk
    exact .decompose (PatternCode.balanced hs hp p hc hr')
termination_by sizeOf items

theorem PatternsCode.balanced (hs : ∀ id slot, l.get? id = some slot → s.saves slot.id)
    (hp : ∀ path, publishAt = some path → path ∈ ps) (params : List Pattern) {line d : Nat}
    {is k : List Instr} (h : PatternsCode l publishAt params line is k) (hk : Balanced s d ps k) :
    Balanced s (d + params.length) ps is := by
  match params with
  | [] =>
    rw [PatternsCode] at h
    exact h ▸ hk
  | p :: params =>
    obtain ⟨r, hc, hr⟩ := h
    exact PatternCode.balanced hs hp p hc (PatternsCode.balanced hs hp params hr hk)
termination_by sizeOf params

end

/-- Making a list of slots puts them in front of the list on top. -/
theorem consCode_balanced {slots : List Slot} {d line : Nat} {k : List Instr}
    (hk : Balanced s (d + 1) ps k) : Balanced s (d + 1) ps (consCode line slots ++ k) := by
  induction slots generalizing k with
  | nil => exact hk
  | cons slot slots ih =>
    rw [consCode, List.append_assoc]
    exact ih (.loadLocal (.loadName (.call hk)))

end

section

variable {l : Links}

mutual

theorem ExprCode.balanced {s : Stretch} {ps : List (List String)} (e : Expr) {allowTail : Bool}
    {i j d : Nat} {is k : List Instr} (h : ExprCode l e s.unit allowTail i j is k) (hs : s.Saves l i)
    (ht : allowTail = true → d = 0 ∧ s.restarts = true ∧ Idle s.unit k)
    (hk : Balanced s (d + 1) ps k) :
    Balanced s d ps is := by
  match e with
  | .call callee args line =>
    by_cases hm : callee.isMatchName = true
    · obtain ⟨scrutinee, cases, _, rfl⟩ := exprCode_match_args hm h
      obtain ⟨m, tests, bodies, done, he, ha, hb, hd⟩ := (exprCode_match hm).mp h
      have hm := hs.mono (ExprCode.slots_le scrutinee he)
      have hle := hk.length_le
      have ht' : allowTail = true →
          d = 0 ∧ s.restarts = true ∧ Idle s.unit (.mk line .nothing :: k) := by
        intro hta
        obtain ⟨hz, hr, hi⟩ := ht hta
        exact ⟨hz, hr, .nothing hi⟩
      have htests := ArmsCode.balanced cases ha hm ht' hd (.nothing hk) (Nat.le_succ_of_le hle)
        (.fail (by omega))
      exact ExprCode.balanced scrutinee he hs nofun htests
    · by_cases hc : ∃ selfLine, callee = .self selfLine
      · obtain ⟨selfLine, rfl⟩ := hc
        obtain ⟨hta, ha⟩ := exprCode_self.mp h
        obtain ⟨rfl, hr, hi⟩ := ht hta
        refine ArgsCode.balanced args ha hs ?_
        rw [Nat.zero_add]
        exact .tailCall hr hi hk.length_le
      · obtain ⟨m, r, ha, he⟩ := (exprCode_call (by simpa using hm) (not_exists.mp hc)).mp h
        have hm := hs.mono (ArgsCode.slots_le args ha)
        exact ArgsCode.balanced args ha hs (ExprCode.balanced callee he hm nofun (.call hk))
  | .function params body line =>
    simp only [ExprCode] at h
    obtain ⟨unit, r, hp, hb, rfl⟩ := h
    refine .loadFunction ?_ hk
    have hr : Balanced (.body unit) 0 [] r :=
      BlockCode.balanced body hb (Stretch.body_saves unit l i) (fun _ => ⟨rfl, rfl, .done⟩)
        (.done rfl rfl)
    have hu := PatternsCode.balanced (Stretch.body_saves unit l i).names nothing_published params hp hr
    rwa [Nat.zero_add] at hu
  | .list elements line =>
    simp only [ExprCode] at h
    split at h
    · obtain ⟨r, rfl, hp⟩ := h
      exact .loadName (PureCode.balanced elements hp hs hk)
    · obtain ⟨slots, hi⟩ := h
      exact ItemsCode.balanced elements hi hs (.loadName (consCode_balanced hk))
  | .literal value _ =>
    simp only [ExprCode] at h
    rw [h.2]
    cases value with
    | number x => exact .loadNumber hk
    | text t => exact .loadText hk
    | unit => exact .loadName hk
    | emptyList => exact .loadName hk
  | .name n =>
    simp only [ExprCode] at h
    rw [h.2, QName.op]
    split
    · exact .loadLocal hk
    · exact .loadName hk
  | .self _ => simp only [ExprCode] at h
termination_by sizeOf e

theorem ArgsCode.balanced {s : Stretch} {ps : List (List String)} (es : List Expr) {i j d : Nat}
    {is k : List Instr} (h : ArgsCode l es s.unit i j is k) (hs : s.Saves l i)
    (hk : Balanced s (d + es.length) ps k) : Balanced s d ps is := by
  match es with
  | [] =>
    simp only [ArgsCode] at h
    exact h.2 ▸ hk
  | e :: es =>
    obtain ⟨m, r, ha, he⟩ := h
    have hm := hs.mono (ArgsCode.slots_le es ha)
    exact ArgsCode.balanced es ha hs (ExprCode.balanced e he hm nofun hk)
termination_by sizeOf es

theorem PureCode.balanced {s : Stretch} {ps : List (List String)} (bs : List Block)
    {line i j d : Nat} {is k : List Instr} (h : PureCode l bs s.unit line i j is k) (hs : s.Saves l i) (hk : Balanced s (d + 1) ps k) :
    Balanced s (d + 1) ps is := by
  match bs with
  | [] =>
    simp only [PureCode] at h
    exact h.2 ▸ hk
  | b :: bs =>
    obtain ⟨m, r, hp, hb⟩ := h
    have hm := hs.mono (PureCode.slots_le bs hp)
    exact PureCode.balanced bs hp hs (BlockCode.balanced b hb hm nofun (.loadName (.call hk)))
termination_by sizeOf bs

theorem ItemsCode.balanced {s : Stretch} {ps : List (List String)} (bs : List Block) {line : Nat}
    {slots : List Slot} {i j d : Nat} {is k : List Instr} (h : ItemsCode l bs s.unit line slots i j is k)
    (hs : s.Saves l i) (hk : Balanced s d ps k) : Balanced s d ps is := by
  match bs with
  | [] =>
    simp only [ItemsCode] at h
    exact h.2.2 ▸ hk
  | b :: bs =>
    obtain ⟨m, r, _, hb, _, hi⟩ := h
    have hm := BlockCode.slots_le b hb
    have hr := ItemsCode.balanced bs hi (hs.mono (Nat.le_succ_of_le hm)) hk
    exact BlockCode.balanced b hb hs nofun (.saveLocal (hs.items m hm) hr)
termination_by sizeOf bs

theorem ArmsCode.balanced {s : Stretch} {ps : List (List String)} (cases : List Block)
    {done behind : Nat} {allowTail : Bool} {i j d : Nat} {is k target : List Instr}
    (h : ArmsCode l cases s.unit done allowTail behind i j is k) (hs : s.Saves l i)
    (ht : allowTail = true → d = 0 ∧ s.restarts = true ∧ Idle s.unit target)
    (hd : s.unit.from? done = some target) (htarget : Balanced s (d + 1) ps target)
    (hle : s.rest.length ≤ behind) (hk : Balanced s (d + 1) ps k) : Balanced s (d + 1) ps is := by
  match cases with
  | [] =>
    simp only [ArmsCode] at h
    exact h.2 ▸ hk
  | b :: cases =>
    obtain ⟨pattern, body, line, rfl⟩ := armsCode_cons h
    rw [ArmsCode] at h
    obtain ⟨label, m, r, start, bound, rest, rfl, hl, hp, hb, hr, ha⟩ := h
    have hm := hs.mono (BlockCode.slots_le body hb)
    have ht' : allowTail = true →
        d = 0 ∧ s.restarts = true ∧ Idle s.unit (.mk line (.jump done) :: rest) := by
      intro hta
      obtain ⟨hz, hr, hi⟩ := ht hta
      exact ⟨hz, hr, .jump hd hi⟩
    have hbound := BlockCode.balanced body hb hs ht' (.jump hd htarget (hle.trans hr))
    have hstart := PatternCode.balanced hs.names nothing_published pattern hp hbound
    exact .duplicate (.jumpIf hl hstart (ArmsCode.balanced cases ha hm ht hd htarget hle hk))
termination_by sizeOf cases

theorem BlockCode.balanced {s : Stretch} {ps : List (List String)} (b : Block) {allowTail : Bool}
    {i j d : Nat} {is k : List Instr} (h : BlockCode l b s.unit allowTail i j is k) (hs : s.Saves l i)
    (ht : allowTail = true → d = 0 ∧ s.restarts = true ∧ Idle s.unit k)
    (hk : Balanced s (d + 1) ps k) :
    Balanced s d ps is := by
  match b with
  | .result e => exact ExprCode.balanced e h hs ht hk
  | .bind p value _ rest =>
    obtain ⟨m, r, r', hv, hp, hr⟩ := h
    have hm := hs.mono (BlockCode.slots_le value hv)
    have hr' := BlockCode.balanced rest hr hm ht hk
    exact BlockCode.balanced value hv hs nofun (PatternCode.balanced hs.names nothing_published p hp hr')
termination_by sizeOf b

end

end

section

variable {s : Stretch} {l : Links} {publishRoot : Bool}

theorem typeCode_balanced {ps : List (List String)} {path : List String} {name : QName}
    {isPublic : Bool} {cases : List CaseDecl} {d : Nat} {k : List Instr} (hr : [] ∈ ps)
    (hp : path ∈ ps) (hk : Balanced s d ps k) :
    Balanced s d ps (typeCode path name isPublic cases ++ k) := by
  unfold typeCode
  split
  · exact hk
  · by_cases hi : name.parts.dropLast.isEmpty = true
    · have he : path ++ name.parts.dropLast = path := by
        rw [List.isEmpty_iff.mp hi, List.append_nil]
      simp only [hi, if_true, List.nil_append, he]
      exact .makeType hp hk
    · simp only [hi]
      exact .makeNamespace hr
        (.makeType List.mem_cons_self (hk.mono (List.subset_cons_self _ _)))

mutual

theorem DeclsCode.balanced (ds : List Decl) {ps : List (List String)} {path : List String}
    {i j d : Nat} {is k : List Instr} (h : DeclsCode l publishRoot ds path s.unit i j is k)
    (hs : s.Saves l i) (hr : [] ∈ ps) (hp : path ∈ ps) (hk : Balanced s d ps k) :
    Balanced s d ps is := by
  match ds with
  | [] =>
    simp only [DeclsCode] at h
    exact h.2 ▸ hk
  | e :: ds =>
    obtain ⟨m, r, he, hds⟩ := h
    have hm := hs.mono (DeclCode.slots_le e he)
    exact DeclCode.balanced e he hs hr hp (DeclsCode.balanced ds hds hm hr hp hk)
termination_by sizeOf ds

theorem DeclCode.balanced (e : Decl) {ps : List (List String)} {path : List String}
    {i j d : Nat} {is k : List Instr} (h : DeclCode l publishRoot e path s.unit i j is k)
    (hs : s.Saves l i) (hr : [] ∈ ps) (hp : path ∈ ps) (hk : Balanced s d ps k) :
    Balanced s d ps is := by
  match e with
  | .space ns => exact NamespaceCode.balanced ns h hs hr hk
  | .type name isPublic cases none =>
    obtain ⟨r, rfl, _, rfl⟩ := h
    exact typeCode_balanced hr hp hk
  | .type name isPublic cases (some ns) =>
    obtain ⟨r, rfl, hb⟩ := h
    refine typeCode_balanced hr hp ?_
    simp only at hb
    split at hb
    · exact hb.2 ▸ hk
    · exact NamespaceCode.balanced ns hb hs hr hk
  | .binding p value isPublic =>
    obtain ⟨r, hv, hc⟩ := h
    have hpath : ∀ q, (if isPublic || (path.isEmpty && publishRoot) then some path else none) =
        some q → q ∈ ps := by
      intro q hq
      split at hq
      · exact Option.some.inj hq ▸ hp
      · cases hq
    have hr := PatternCode.balanced hs.names hpath p hc hk
    exact BlockCode.balanced value hv hs nofun hr
termination_by sizeOf e

theorem NamespaceCode.balanced (ns : NamespaceDecl) {ps : List (List String)}
    {path : List String} {i j d : Nat} {is k : List Instr}
    (h : NamespaceCode l publishRoot ns path s.unit i j is k)
    (hs : s.Saves l i) (hr : [] ∈ ps) (hk : Balanced s d ps k) :
    Balanced s d ps is := by
  match ns with
  | .mk name isPublic decls =>
    obtain ⟨r, rfl, hds⟩ := h
    have hsub := List.subset_cons_self (path ++ name.parts) ps
    exact .makeNamespace hr (DeclsCode.balanced decls hds hs (hsub hr) List.mem_cons_self
      (hk.mono hsub))
termination_by sizeOf ns

end

theorem importCode_balanced {ps : List (List String)} {m : Import} {d : Nat} {k : List Instr}
    (hr : [] ∈ ps) (hk : Balanced s d ps k) : Balanced s d ps (importCode m ++ k) := by
  unfold importCode
  split
  · exact .importAll hr hk
  · generalize m.names = names
    induction names with
    | nil => exact hk
    | cons n names ih => exact .importEntry hr ih

theorem importsCode_balanced {ps : List (List String)} {ms : List Import} {d : Nat}
    {k : List Instr} (hr : [] ∈ ps) (hk : Balanced s d ps k) :
    Balanced s d ps (ms.flatMap importCode ++ k) := by
  induction ms with
  | nil => exact hk
  | cons m ms ih =>
    rw [List.flatMap_cons, List.append_assoc]
    exact importCode_balanced hr ih

end

/-- How many operands a program ends with: its call at the end leaves one. -/
def Program.height (p : Program) : Nat :=
  if p.trailing.isSome then 1 else 0

theorem compile_balanced {p : Program} {publishRoot : Bool} {n next : Nat} {c : Code}
    (h : p.compile publishRoot n = .ok (c, next)) :
    Balanced (.main c p.height) 0 [[]] c.instrs := by
  obtain ⟨m, r, r', hi, hd, ht⟩ := compile_eq_ok h
  have hs : ∀ i, (Stretch.main c p.height).Saves (p.link n).links i :=
    fun i => ⟨fun _ _ _ => trivial, fun _ _ => trivial⟩
  have hroot : ([] : List String) ∈ [([] : List String)] := List.mem_cons_self
  have hr' : Balanced (.main c p.height) 0 [[]] r' := by
    unfold Program.height
    cases hc : p.trailing with
    | none =>
      rw [hc] at ht
      exact .done rfl ht.2
    | some call =>
      rw [hc] at ht
      exact ExprCode.balanced (s := .main c 1) call.toExpr ht
        ⟨fun _ _ _ => trivial, fun _ _ => trivial⟩ nofun (.done rfl rfl)
  have hr := DeclsCode.balanced p.root.decls hd (hs _) hroot hroot hr'
  rw [hi]
  exact importsCode_balanced hroot hr

end MatchLang
