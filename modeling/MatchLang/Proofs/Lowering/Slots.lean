import MatchLang.Proofs.Lowering.Code

/-! The slots of list items are numbered upwards, each used once. -/

namespace MatchLang

mutual

theorem ExprCode.slots_le {l : Links} (e : Expr) {c : Code} {allowTail : Bool} {i j : Nat}
    {is k : List Instr} (h : ExprCode l e c allowTail i j is k) : i ≤ j := by
  match e with
  | .call callee args line =>
    by_cases hm : callee.isMatchName = true
    · obtain ⟨scrutinee, cases, _, rfl⟩ := exprCode_match_args hm h
      obtain ⟨m, _, _, _, hs, ha, _, _⟩ := (exprCode_match hm).mp h
      have h₁ := ExprCode.slots_le scrutinee hs
      have h₂ := ArmsCode.slots_le cases ha
      omega
    · by_cases hs : ∃ selfLine, callee = .self selfLine
      · obtain ⟨selfLine, rfl⟩ := hs
        exact ArgsCode.slots_le args (exprCode_self.mp h).2
      · obtain ⟨m, _, ha, he⟩ := (exprCode_call (by simpa using hm) (not_exists.mp hs)).mp h
        have h₁ := ArgsCode.slots_le args ha
        have h₂ := ExprCode.slots_le callee he
        omega
  | .function params body line =>
    simp only [ExprCode] at h
    obtain ⟨_, _, _, hb, _⟩ := h
    exact BlockCode.slots_le body hb
  | .list elements line =>
    simp only [ExprCode] at h
    split at h
    · obtain ⟨_, _, hp⟩ := h
      exact PureCode.slots_le elements hp
    · obtain ⟨_, hi⟩ := h
      exact ItemsCode.slots_le elements hi
  | .literal _ _ =>
    simp only [ExprCode] at h
    omega
  | .name _ =>
    simp only [ExprCode] at h
    omega
  | .self _ =>
    simp only [ExprCode] at h
termination_by sizeOf e

theorem ArgsCode.slots_le {l : Links} (es : List Expr) {c : Code} {i j : Nat} {is k : List Instr}
    (h : ArgsCode l es c i j is k) : i ≤ j := by
  match es with
  | [] =>
    simp only [ArgsCode] at h
    omega
  | e :: es =>
    obtain ⟨m, _, ha, he⟩ := h
    have h₁ := ArgsCode.slots_le es ha
    have h₂ := ExprCode.slots_le e he
    omega
termination_by sizeOf es

theorem PureCode.slots_le {l : Links} (bs : List Block) {c : Code} {line i j : Nat}
    {is k : List Instr} (h : PureCode l bs c line i j is k) : i ≤ j := by
  match bs with
  | [] =>
    simp only [PureCode] at h
    omega
  | b :: bs =>
    obtain ⟨m, _, ha, he⟩ := h
    have h₁ := PureCode.slots_le bs ha
    have h₂ := BlockCode.slots_le b he
    omega
termination_by sizeOf bs

theorem ItemsCode.slots_le {l : Links} (bs : List Block) {c : Code} {line : Nat}
    {slots : List Slot} {i j : Nat} {is k : List Instr}
    (h : ItemsCode l bs c line slots i j is k) : i ≤ j := by
  match bs with
  | [] =>
    simp only [ItemsCode] at h
    omega
  | b :: bs =>
    obtain ⟨m, _, _, hb, _, hi⟩ := h
    have h₁ := BlockCode.slots_le b hb
    have h₂ := ItemsCode.slots_le bs hi
    omega
termination_by sizeOf bs

theorem ArmsCode.slots_le {l : Links} (cases : List Block) {c : Code} {done behind : Nat}
    {allowTail : Bool} {i j : Nat} {is k : List Instr}
    (h : ArmsCode l cases c done allowTail behind i j is k) : i ≤ j := by
  match cases with
  | [] =>
    simp only [ArmsCode] at h
    omega
  | b :: cases =>
    obtain ⟨pattern, body, line, rfl⟩ := armsCode_cons h
    rw [ArmsCode] at h
    obtain ⟨_, m, _, _, _, _, _, _, _, hb, _, ha⟩ := h
    have h₁ := BlockCode.slots_le body hb
    have h₂ := ArmsCode.slots_le cases ha
    omega
termination_by sizeOf cases

theorem BlockCode.slots_le {l : Links} (b : Block) {c : Code} {allowTail : Bool} {i j : Nat}
    {is k : List Instr} (h : BlockCode l b c allowTail i j is k) : i ≤ j := by
  match b with
  | .result e => exact ExprCode.slots_le e h
  | .bind p value _ rest =>
    obtain ⟨m, _, _, hv, _, hr⟩ := h
    have h₁ := BlockCode.slots_le value hv
    have h₂ := BlockCode.slots_le rest hr
    omega
termination_by sizeOf b

end

mutual

theorem DeclsCode.slots_le {l : Links} {publishRoot : Bool} (ds : List Decl)
    {path : List String} {c : Code} {i j : Nat} {is k : List Instr}
    (h : DeclsCode l publishRoot ds path c i j is k) : i ≤ j := by
  match ds with
  | [] =>
    simp only [DeclsCode] at h
    omega
  | d :: ds =>
    obtain ⟨m, _, hd, hds⟩ := h
    have h₁ := DeclCode.slots_le d hd
    have h₂ := DeclsCode.slots_le ds hds
    omega
termination_by sizeOf ds

theorem DeclCode.slots_le {l : Links} {publishRoot : Bool} (d : Decl) {path : List String}
    {c : Code} {i j : Nat} {is k : List Instr} (h : DeclCode l publishRoot d path c i j is k) :
    i ≤ j := by
  match d with
  | .space ns => exact NamespaceCode.slots_le ns h
  | .type _ _ _ none =>
    obtain ⟨_, _, hj, _⟩ := h
    omega
  | .type _ _ _ (some ns) =>
    obtain ⟨_, _, hb⟩ := h
    simp only at hb
    split at hb
    · omega
    · exact NamespaceCode.slots_le ns hb
  | .binding _ value _ =>
    obtain ⟨_, hv, _⟩ := h
    exact BlockCode.slots_le value hv
termination_by sizeOf d

theorem NamespaceCode.slots_le {l : Links} {publishRoot : Bool} (ns : NamespaceDecl)
    {path : List String} {c : Code} {i j : Nat} {is k : List Instr}
    (h : NamespaceCode l publishRoot ns path c i j is k) : i ≤ j := by
  match ns with
  | .mk _ _ decls =>
    obtain ⟨_, _, hds⟩ := h
    exact DeclsCode.slots_le decls hds
termination_by sizeOf ns

end

end MatchLang
