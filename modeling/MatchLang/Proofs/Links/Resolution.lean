import MatchLang.Proofs.Links.Occurrences

/-! What linking comes to. Every occurrence of a name is linked to the slot of the innermost group around
it that declares the name, if one does; and the slots of a form are given out from a stretch of numbers
of its own. Of these some are for the names of the unit that the form is in, and the others for those
of the functions inside it. -/

namespace MatchLang

/-- The group of some names, whose slots have numbers from `a` up to `b`. -/
structure Group.Declares (g : Group) (l : Links) (xs : List Leaf) (a b : Nat) : Prop where
  le : a ≤ b
  leaf : ∀ x ∈ xs, ∃ slot, l.get? x.id = some slot ∧ g.lookup x.name = some slot
  entry : ∀ name slot, g.lookup name = some slot →
    slot.name = name ∧ a ≤ slot.id ∧ slot.id < b ∧ ∃ x ∈ xs, x.name = name
  distinct : ∀ name name' slot slot', g.lookup name = some slot → g.lookup name' = some slot' →
    slot.id = slot'.id → name = name'

/-- The numbers from `a` up to `b` are for names of the unit. -/
def Fills (own : Nat → Prop) (a b : Nat) : Prop :=
  ∀ n, a ≤ n → n < b → own n

/-- The numbers from `a` up to `b` are for names of other units. -/
def Avoids (own : Nat → Prop) (a b : Nat) : Prop :=
  ∀ n, a ≤ n → n < b → ¬ own n

mutual

/-- The names of an expression are linked within the groups `gs`. A function is a unit of its own, but
the arms of a choice belong to the unit that they are in. -/
def ExprLinks (l : Links) : Expr → (own : Nat → Prop) → List Group → Nat → Nat → Prop
  | .call callee args _, own, gs, a, b =>
    ∃ m, ExprLinks l callee own gs a m ∧
      if callee.isMatchName then ChoiceLinks l args own gs m b else ArgsLinks l args own gs m b
  | .function params body _, own, gs, a, b =>
    Avoids own a b ∧ ∃ own' g₁ g₂ m₁ m₂, g₁.Declares l (patternsLeaves params) a m₁ ∧
      g₂.Declares l (patternsLeaves body.patterns) m₁ m₂ ∧ Fills own' a m₂ ∧
      BodyLinks l body own' (g₂ :: g₁ :: gs) m₂ b
  | .list elements _, own, gs, a, b => ElementsLinks l elements own gs a b
  | .literal _ _, _, _, a, b => a = b
  | .name n, _, gs, a, b => a = b ∧ l.get? n.id = n.single?.bind (findSlot? gs)
  | .self _, _, _, a, b => a = b

/-- The value that is tested and the arms. -/
def ChoiceLinks (l : Links) : List Expr → (own : Nat → Prop) → List Group → Nat → Nat → Prop
  | [], _, _, a, b => a ≤ b
  | [_], _, _, a, b => a ≤ b
  | scrutinee :: cases :: _, own, gs, a, b =>
    ∃ m m', ExprLinks l scrutinee own gs a m ∧ CasesLinks l cases own gs m m' ∧ m' ≤ b

/-- The list of the arms; other choices are not compiled. -/
def CasesLinks (l : Links) : Expr → (own : Nat → Prop) → List Group → Nat → Nat → Prop
  | .list cases _, own, gs, a, b => ArmsLinks l cases own gs a b
  | _, _, _, a, b => a ≤ b

def ArgsLinks (l : Links) : List Expr → (own : Nat → Prop) → List Group → Nat → Nat → Prop
  | [], _, _, a, b => a = b
  | e :: es, own, gs, a, b => ∃ m, ExprLinks l e own gs a m ∧ ArgsLinks l es own gs m b

def ElementsLinks (l : Links) : List Block → (own : Nat → Prop) → List Group → Nat → Nat → Prop
  | [], _, _, a, b => a = b
  | e :: es, own, gs, a, b =>
    ∃ g m m', g.Declares l (patternsLeaves e.patterns) a m ∧ Fills own a m ∧
      BodyLinks l e own (g :: gs) m m' ∧ ElementsLinks l es own gs m' b

def ArmsLinks (l : Links) : List Block → (own : Nat → Prop) → List Group → Nat → Nat → Prop
  | [], _, _, a, b => a = b
  | .result (.function params body _) :: cases, own, gs, a, b =>
    ∃ g₁ g₂ m₁ m₂ m', g₁.Declares l (patternsLeaves params) a m₁ ∧
      g₂.Declares l (patternsLeaves body.patterns) m₁ m₂ ∧ Fills own a m₂ ∧
      BodyLinks l body own (g₂ :: g₁ :: [] :: gs) m₂ m' ∧ ArmsLinks l cases own gs m' b
  | _, _, _, a, b => a ≤ b

/-- A block whose own group is already the innermost one. -/
def BodyLinks (l : Links) : Block → (own : Nat → Prop) → List Group → Nat → Nat → Prop
  | .result e, own, gs, a, b => ExprLinks l e own gs a b
  | .bind _ value _ rest, own, gs, a, b =>
    ∃ g m m', g.Declares l (patternsLeaves value.patterns) a m ∧ Fills own a m ∧
      BodyLinks l value own (g :: gs) m m' ∧ BodyLinks l rest own gs m' b

end

/-- A block with its group. -/
def BlockLinks (l : Links) (e : Block) (own : Nat → Prop) (gs : List Group) (a b : Nat) : Prop :=
  ∃ g m, g.Declares l (patternsLeaves e.patterns) a m ∧ Fills own a m ∧
    BodyLinks l e own (g :: gs) m b

/-- The parameters and the body of a function of the unit. -/
def FunctionLinks (l : Links) (params : List Pattern) (body : Block) (own : Nat → Prop)
    (gs : List Group) (a b : Nat) : Prop :=
  ∃ g₁ g₂ m₁ m₂, g₁.Declares l (patternsLeaves params) a m₁ ∧
    g₂.Declares l (patternsLeaves body.patterns) m₁ m₂ ∧ Fills own a m₂ ∧
    BodyLinks l body own (g₂ :: g₁ :: gs) m₂ b

section

variable {l : Links} {own : Nat → Prop} {gs : List Group} {a b : Nat}

theorem exprLinks_function {params : List Pattern} {body : Block} {line : Nat} :
    ExprLinks l (.function params body line) own gs a b ↔
      Avoids own a b ∧ ∃ own', FunctionLinks l params body own' gs a b := by
  simp only [ExprLinks, FunctionLinks]

theorem elementsLinks_cons {e : Block} {es : List Block} :
    ElementsLinks l (e :: es) own gs a b ↔
      ∃ m, BlockLinks l e own gs a m ∧ ElementsLinks l es own gs m b := by
  simp only [ElementsLinks, BlockLinks]
  constructor
  · rintro ⟨g, m, m', hg, hf, he, hes⟩
    exact ⟨m', ⟨g, m, hg, hf, he⟩, hes⟩
  · rintro ⟨m', ⟨g, m, hg, hf, he⟩, hes⟩
    exact ⟨g, m, m', hg, hf, he, hes⟩

theorem armsLinks_cons {params : List Pattern} {body : Block} {line : Nat} {cases : List Block} :
    ArmsLinks l (.result (.function params body line) :: cases) own gs a b ↔
      ∃ m, FunctionLinks l params body own ([] :: gs) a m ∧ ArmsLinks l cases own gs m b := by
  simp only [ArmsLinks, FunctionLinks]
  constructor
  · rintro ⟨g₁, g₂, m₁, m₂, m, h₁, h₂, hf, hb, hcases⟩
    exact ⟨m, ⟨g₁, g₂, m₁, m₂, h₁, h₂, hf, hb⟩, hcases⟩
  · rintro ⟨m, ⟨g₁, g₂, m₁, m₂, h₁, h₂, hf, hb⟩, hcases⟩
    exact ⟨g₁, g₂, m₁, m₂, m, h₁, h₂, hf, hb, hcases⟩

theorem bodyLinks_bind {p : Pattern} {value rest : Block} {isPublic : Bool} :
    BodyLinks l (.bind p value isPublic rest) own gs a b ↔
      ∃ m, BlockLinks l value own gs a m ∧ BodyLinks l rest own gs m b := by
  simp only [BodyLinks, BlockLinks]
  constructor
  · rintro ⟨g, m, m', hg, hf, hv, hr⟩
    exact ⟨m', ⟨g, m, hg, hf, hv⟩, hr⟩
  · rintro ⟨m', ⟨g, m, hg, hf, hv⟩, hr⟩
    exact ⟨g, m, m', hg, hf, hv, hr⟩

end

mutual

def DeclsLinks (l : Links) : List Decl → (own : Nat → Prop) → List Group → Nat → Nat → Prop
  | [], _, _, a, b => a = b
  | d :: ds, own, gs, a, b => ∃ m, DeclLinks l d own gs a m ∧ DeclsLinks l ds own gs m b

def DeclLinks (l : Links) : Decl → (own : Nat → Prop) → List Group → Nat → Nat → Prop
  | .space ns, own, gs, a, b => NamespaceLinks l ns own gs a b
  | .type _ _ _ (some ns), own, gs, a, b => NamespaceLinks l ns own gs a b
  | .type _ _ _ none, _, _, a, b => a = b
  | .binding _ value _, own, gs, a, b => BlockLinks l value own gs a b

def NamespaceLinks (l : Links) : NamespaceDecl → (own : Nat → Prop) → List Group → Nat → Nat → Prop
  | .mk _ _ decls, own, gs, a, b =>
    ∃ g m, g.Declares l (patternsLeaves (bindingPatterns decls)) a m ∧ Fills own a m ∧
      DeclsLinks l decls own (g :: gs) m b

end

/-- The names of a program. The call at the end sees the group of the root. -/
def ProgramLinks (l : Links) (p : Program) (own : Nat → Prop) (a b : Nat) : Prop :=
  ∃ g m m', g.Declares l (patternsLeaves (bindingPatterns p.root.decls)) a m ∧ Fills own a m ∧
    DeclsLinks l p.root.decls own [g] m m' ∧
    match p.trailing with
    | some c => ExprLinks l c.toExpr own [g] m' b
    | none => m' = b

section

variable {l : Links} {own own' : Nat → Prop} {a b m : Nat}

/-- Two divisions of numbers are the same from `a` up to `b`. -/
def Agree (own own' : Nat → Prop) (a b : Nat) : Prop :=
  ∀ n, a ≤ n → n < b → (own n ↔ own' n)

theorem Agree.sub {c d : Nat} (h : Agree own own' a b) (hc : a ≤ c) (hd : d ≤ b) :
    Agree own own' c d :=
  fun n hn hn' => h n (Nat.le_trans hc hn) (Nat.lt_of_lt_of_le hn' hd)

theorem Fills.congr (h : Fills own a b) (ha : Agree own own' a b) : Fills own' a b :=
  fun n hn hn' => (ha n hn hn').mp (h n hn hn')

theorem Avoids.congr (h : Avoids own a b) (ha : Agree own own' a b) : Avoids own' a b :=
  fun n hn hn' ho => h n hn hn' ((ha n hn hn').mpr ho)

mutual

/-- Linking only divides the numbers that it gives out. -/
theorem ExprLinks.local (e : Expr) {own : Nat → Prop} {gs : List Group} {a b : Nat}
    (h : ExprLinks l e own gs a b) :
    a ≤ b ∧ ∀ own', Agree own own' a b → ExprLinks l e own' gs a b := by
  match e with
  | .call callee args _ =>
    simp only [ExprLinks] at h ⊢
    obtain ⟨m, hc, hargs⟩ := h
    obtain ⟨hle, hc⟩ := ExprLinks.local callee hc
    by_cases hm : callee.isMatchName = true
    · simp only [if_pos hm] at hargs ⊢
      obtain ⟨hle', hargs⟩ := ChoiceLinks.local args hargs
      exact ⟨by omega, fun own' ha => ⟨m, hc own' (ha.sub (Nat.le_refl _) hle'),
        hargs own' (ha.sub hle (Nat.le_refl _))⟩⟩
    · simp only [if_neg hm] at hargs ⊢
      obtain ⟨hle', hargs⟩ := ArgsLinks.local args hargs
      exact ⟨by omega, fun own' ha => ⟨m, hc own' (ha.sub (Nat.le_refl _) hle'),
        hargs own' (ha.sub hle (Nat.le_refl _))⟩⟩
  | .function params body _ =>
    simp only [ExprLinks] at h ⊢
    obtain ⟨hav, own₀, g₁, g₂, m₁, m₂, h₁, h₂, hf, hb⟩ := h
    obtain ⟨hle, _⟩ := BodyLinks.local body hb
    have hle₁ := h₁.le
    have hle₂ := h₂.le
    exact ⟨by omega, fun own' ha => ⟨hav.congr ha, own₀, g₁, g₂, m₁, m₂, h₁, h₂, hf, hb⟩⟩
  | .list elements _ =>
    simp only [ExprLinks] at h ⊢
    exact ElementsLinks.local elements h
  | .literal _ _ =>
    simp only [ExprLinks] at h ⊢
    exact ⟨Nat.le_of_eq h, fun _ _ => h⟩
  | .name n =>
    simp only [ExprLinks] at h ⊢
    exact ⟨Nat.le_of_eq h.1, fun _ _ => h⟩
  | .self _ =>
    simp only [ExprLinks] at h ⊢
    exact ⟨Nat.le_of_eq h, fun _ _ => h⟩

theorem ChoiceLinks.local (es : List Expr) {own : Nat → Prop} {gs : List Group} {a b : Nat}
    (h : ChoiceLinks l es own gs a b) :
    a ≤ b ∧ ∀ own', Agree own own' a b → ChoiceLinks l es own' gs a b := by
  match es with
  | [] | [_] =>
    simp only [ChoiceLinks] at h ⊢
    exact ⟨h, fun _ _ => h⟩
  | scrutinee :: cases :: _ =>
    simp only [ChoiceLinks] at h ⊢
    obtain ⟨m, m', hs, hcases, hm⟩ := h
    obtain ⟨hle, hs⟩ := ExprLinks.local scrutinee hs
    obtain ⟨hle', hcases⟩ := CasesLinks.local cases hcases
    exact ⟨by omega, fun own' ha => ⟨m, m', hs own' (ha.sub (Nat.le_refl _) (by omega)),
      hcases own' (ha.sub hle hm), hm⟩⟩

theorem CasesLinks.local (e : Expr) {own : Nat → Prop} {gs : List Group} {a b : Nat}
    (h : CasesLinks l e own gs a b) :
    a ≤ b ∧ ∀ own', Agree own own' a b → CasesLinks l e own' gs a b := by
  match e with
  | .list cases _ =>
    simp only [CasesLinks] at h ⊢
    exact ArmsLinks.local cases h
  | .call _ _ _ | .function _ _ _ | .literal _ _ | .name _ | .self _ =>
    simp only [CasesLinks] at h ⊢
    exact ⟨h, fun _ _ => h⟩

theorem ArgsLinks.local (es : List Expr) {own : Nat → Prop} {gs : List Group} {a b : Nat}
    (h : ArgsLinks l es own gs a b) :
    a ≤ b ∧ ∀ own', Agree own own' a b → ArgsLinks l es own' gs a b := by
  match es with
  | [] =>
    simp only [ArgsLinks] at h ⊢
    exact ⟨Nat.le_of_eq h, fun _ _ => h⟩
  | e :: es =>
    simp only [ArgsLinks] at h ⊢
    obtain ⟨m, he, hes⟩ := h
    obtain ⟨hle, he⟩ := ExprLinks.local e he
    obtain ⟨hle', hes⟩ := ArgsLinks.local es hes
    exact ⟨by omega, fun own' ha => ⟨m, he own' (ha.sub (Nat.le_refl _) hle'),
      hes own' (ha.sub hle (Nat.le_refl _))⟩⟩

theorem ElementsLinks.local (es : List Block) {own : Nat → Prop} {gs : List Group} {a b : Nat}
    (h : ElementsLinks l es own gs a b) :
    a ≤ b ∧ ∀ own', Agree own own' a b → ElementsLinks l es own' gs a b := by
  match es with
  | [] =>
    simp only [ElementsLinks] at h ⊢
    exact ⟨Nat.le_of_eq h, fun _ _ => h⟩
  | e :: es =>
    simp only [ElementsLinks] at h ⊢
    obtain ⟨g, m, m', hg, hf, he, hes⟩ := h
    have hle := hg.le
    obtain ⟨hle', he⟩ := BodyLinks.local e he
    obtain ⟨hle'', hes⟩ := ElementsLinks.local es hes
    exact ⟨by omega, fun own' ha => ⟨g, m, m', hg, hf.congr (ha.sub (Nat.le_refl _) (by omega)),
      he own' (ha.sub hle hle''), hes own' (ha.sub (by omega) (Nat.le_refl _))⟩⟩

theorem ArmsLinks.local (es : List Block) {own : Nat → Prop} {gs : List Group} {a b : Nat}
    (h : ArmsLinks l es own gs a b) :
    a ≤ b ∧ ∀ own', Agree own own' a b → ArmsLinks l es own' gs a b := by
  match es with
  | [] =>
    simp only [ArmsLinks] at h ⊢
    exact ⟨Nat.le_of_eq h, fun _ _ => h⟩
  | .result (.function params body _) :: cases =>
    simp only [ArmsLinks] at h ⊢
    obtain ⟨g₁, g₂, m₁, m₂, m', h₁, h₂, hf, hb, hcases⟩ := h
    have hle₁ := h₁.le
    have hle₂ := h₂.le
    obtain ⟨hle, hb⟩ := BodyLinks.local body hb
    obtain ⟨hle', hcases⟩ := ArmsLinks.local cases hcases
    exact ⟨by omega, fun own' ha => ⟨g₁, g₂, m₁, m₂, m', h₁, h₂,
      hf.congr (ha.sub (Nat.le_refl _) (by omega)), hb own' (ha.sub (by omega) hle'),
      hcases own' (ha.sub (by omega) (Nat.le_refl _))⟩⟩
  | .bind _ _ _ _ :: _ | .result (.call _ _ _) :: _ | .result (.list _ _) :: _
  | .result (.literal _ _) :: _ | .result (.name _) :: _ | .result (.self _) :: _ =>
    have hle : a ≤ b := by simpa only [ArmsLinks] using h
    exact ⟨hle, fun _ _ => by simpa only [ArmsLinks] using hle⟩

theorem BodyLinks.local (e : Block) {own : Nat → Prop} {gs : List Group} {a b : Nat}
    (h : BodyLinks l e own gs a b) :
    a ≤ b ∧ ∀ own', Agree own own' a b → BodyLinks l e own' gs a b := by
  match e with
  | .result e =>
    simp only [BodyLinks] at h ⊢
    exact ExprLinks.local e h
  | .bind _ value _ rest =>
    simp only [BodyLinks] at h ⊢
    obtain ⟨g, m, m', hg, hf, hv, hr⟩ := h
    have hle := hg.le
    obtain ⟨hle', hv⟩ := BodyLinks.local value hv
    obtain ⟨hle'', hr⟩ := BodyLinks.local rest hr
    exact ⟨by omega, fun own' ha => ⟨g, m, m', hg, hf.congr (ha.sub (Nat.le_refl _) (by omega)),
      hv own' (ha.sub hle hle''), hr own' (ha.sub (by omega) (Nat.le_refl _))⟩⟩

end

theorem BlockLinks.local {e : Block} {gs : List Group} (h : BlockLinks l e own gs a b) :
    a ≤ b ∧ ∀ own', Agree own own' a b → BlockLinks l e own' gs a b := by
  obtain ⟨g, m, hg, hf, he⟩ := h
  have hle := hg.le
  obtain ⟨hle', he⟩ := BodyLinks.local e he
  exact ⟨by omega, fun own' ha => ⟨g, m, hg, hf.congr (ha.sub (Nat.le_refl _) hle'),
    he own' (ha.sub hle (Nat.le_refl _))⟩⟩

theorem FunctionLinks.local {params : List Pattern} {body : Block} {gs : List Group}
    (h : FunctionLinks l params body own gs a b) :
    a ≤ b ∧ ∀ own', Agree own own' a b → FunctionLinks l params body own' gs a b := by
  obtain ⟨g₁, g₂, m₁, m₂, h₁, h₂, hf, hb⟩ := h
  have hle₁ := h₁.le
  have hle₂ := h₂.le
  obtain ⟨hle, hb⟩ := BodyLinks.local body hb
  exact ⟨by omega, fun own' ha => ⟨g₁, g₂, m₁, m₂, h₁, h₂, hf.congr (ha.sub (Nat.le_refl _) hle),
    hb own' (ha.sub (by omega) (Nat.le_refl _))⟩⟩

end

/-- Linking some occurrences gives out slots and links no others. -/
structure Linking.Adds (ids : List Nat) (s s' : Linking) : Prop where
  le : s.nextSlot ≤ s'.nextSlot
  others : ∀ id, id ∉ ids → s'.links.get? id = s.links.get? id

/-- Linking some occurrences that are all different, and have not been linked before, makes the links
have a property for good: they have it as long as these occurrences are not linked again. -/
def Linking.Resolves (P : Links → Prop) (ids : List Nat) (s s' : Linking) : Prop :=
  s.Adds ids s' ∧ (ids.Nodup → (∀ id ∈ ids, s.links.get? id = none) →
    ∀ l : Links, (∀ id ∈ ids, l.get? id = s'.links.get? id) → P l)

namespace Linking

variable {P Q : Links → Prop} {s s' s'' : Linking} {xs ys ids : List Nat}

theorem Adds.trans (h : s.Adds xs s') (h' : s'.Adds ys s'') : s.Adds (xs ++ ys) s'' where
  le := Nat.le_trans h.le h'.le
  others id hid := by
    rw [List.mem_append, not_or] at hid
    rw [h'.others id hid.2, h.others id hid.1]

theorem Resolves.mono (h : Resolves P ids s s') (hpq : ∀ l, P l → Q l) : Resolves Q ids s s' :=
  ⟨h.1, fun hn hs l hl => hpq l (h.2 hn hs l hl)⟩

theorem Resolves.nil (h : ∀ l, P l) : Resolves P [] s s :=
  ⟨⟨Nat.le_refl _, fun _ _ => rfl⟩, fun _ _ l _ => h l⟩

theorem Resolves.perm (h : Resolves P xs s s') (hp : xs.Perm ys) : Resolves P ys s s' := by
  refine ⟨⟨h.1.le, fun id hid => h.1.others id fun hm => hid (hp.subset hm)⟩, fun hn hs l hl => ?_⟩
  exact h.2 (hp.nodup_iff.mpr hn) (fun id hid => hs id (hp.subset hid)) l
    fun id hid => hl id (hp.subset hid)

theorem Resolves.seq (h : Resolves P xs s s') (h' : Resolves Q ys s' s'') :
    Resolves (fun l => P l ∧ Q l) (xs ++ ys) s s'' := by
  refine ⟨h.1.trans h'.1, fun hn hs l hl => ?_⟩
  obtain ⟨hx, hy, hd⟩ := List.nodup_append.mp hn
  constructor
  · refine h.2 hx (fun id hid => hs id (List.mem_append_left _ hid)) l fun id hid => ?_
    have hnot : id ∉ ys := fun hm => hd id hid id hm rfl
    rw [hl id (List.mem_append_left _ hid), h'.1.others id hnot]
  · refine h'.2 hy (fun id hid => ?_) l fun id hid => hl id (List.mem_append_right _ hid)
    have hnot : id ∉ xs := fun hm => hd id hm id hid rfl
    rw [h.1.others id hnot]
    exact hs id (List.mem_append_right _ hid)

end Linking

section

variable {l : Links} {own own₁ own₂ : Nat → Prop} {a b m : Nat} {s : Linking} {g : Group}
  {xs : List Leaf}

theorem Group.Declares.congr {l' : Links} (h : g.Declares l xs a b)
    (hl : ∀ id ∈ leafIds xs, l'.get? id = l.get? id) : g.Declares l' xs a b where
  le := h.le
  leaf x hx := by
    rw [hl x.id (List.mem_map_of_mem hx)]
    exact h.leaf x hx
  entry := h.entry
  distinct := h.distinct

theorem declareLeaf_adds {id line : Nat} {name : String} :
    s.Adds [id] (declareLeaf id name line g s).2 := by
  unfold declareLeaf
  cases g.lookup name with
  | some slot =>
    refine ⟨Nat.le_refl _, fun i hi => ?_⟩
    simp only [Links.get?_insert, if_neg (List.ne_of_not_mem_cons hi)]
  | none =>
    refine ⟨Nat.le_succ _, fun i hi => ?_⟩
    simp only [Links.get?_insert, if_neg (List.ne_of_not_mem_cons hi)]

/-- One more name is declared: it gets a slot of its own unless the group has it already. -/
theorem Group.Declares.declareLeaf {x : Leaf} (h : g.Declares s.links xs a s.nextSlot)
    (hx : x.id ∉ leafIds xs) :
    (declareLeaf x.id x.name x.line g s).1.Declares (declareLeaf x.id x.name x.line g s).2.links
      (xs ++ [x]) a (declareLeaf x.id x.name x.line g s).2.nextSlot := by
  have hne : ∀ y ∈ xs, y.id ≠ x.id := fun y hy he => hx (he ▸ List.mem_map_of_mem hy)
  unfold MatchLang.declareLeaf
  cases hg : g.lookup x.name with
  | some slot =>
    refine ⟨h.le, fun y hy => ?_, fun n t ht => ?_, h.distinct⟩
    · simp only [Links.get?_insert]
      rcases List.mem_append.mp hy with hy | hy
      · rw [if_neg (hne y hy)]
        exact h.leaf y hy
      · rw [List.mem_singleton.mp hy, if_pos rfl]
        exact ⟨slot, rfl, hg⟩
    · obtain ⟨hn, ha, hb, y, hy, hyn⟩ := h.entry n t ht
      exact ⟨hn, ha, hb, y, List.mem_append_left _ hy, hyn⟩
  | none =>
    have hlookup : ∀ n, List.lookup n ((x.name, (⟨s.nextSlot, x.name, x.line⟩ : Slot)) :: g) =
        if n = x.name then some ⟨s.nextSlot, x.name, x.line⟩ else g.lookup n := by
      intro n
      by_cases hn : n = x.name
      · simp [hn]
      · have hb : (n == x.name) = false := by simp [hn]
        simp [List.lookup_cons, hb, hn]
    refine ⟨Nat.le_succ_of_le h.le, fun y hy => ?_, fun n t ht => ?_, fun n n' t t' ht ht' he => ?_⟩
    · simp only [Links.get?_insert, hlookup]
      rcases List.mem_append.mp hy with hy | hy
      · obtain ⟨slot, hs, hl⟩ := h.leaf y hy
        have hyn : y.name ≠ x.name := by
          intro he
          rw [he, hg] at hl
          cases hl
        rw [if_neg (hne y hy), if_neg hyn]
        exact ⟨slot, hs, hl⟩
      · rw [List.mem_singleton.mp hy, if_pos rfl, if_pos rfl]
        exact ⟨_, rfl, rfl⟩
    · simp only [hlookup] at ht
      split at ht
      · rename_i hn
        cases ht
        exact ⟨hn.symm, h.le, Nat.lt_succ_self _, x, by simp, hn.symm⟩
      · obtain ⟨hn, ha, hb, y, hy, hyn⟩ := h.entry n t ht
        exact ⟨hn, ha, Nat.lt_succ_of_lt hb, y, List.mem_append_left _ hy, hyn⟩
    · simp only [hlookup] at ht ht'
      split at ht <;> split at ht'
      · rename_i hn hn'
        exact hn.trans hn'.symm
      · cases ht
        obtain ⟨_, _, hb, _⟩ := h.entry n' t' ht'
        exact absurd he (Nat.ne_of_gt hb)
      · cases ht'
        obtain ⟨_, _, hb, _⟩ := h.entry n t ht
        exact absurd he (Nat.ne_of_lt hb)
      · exact h.distinct n n' t t' ht ht' he

theorem declareLeaves_declares (ys : List Leaf) (h : g.Declares s.links xs a s.nextSlot)
    (hn : (leafIds (xs ++ ys)).Nodup) :
    (declareLeaves ys g s).1.Declares (declareLeaves ys g s).2.links (xs ++ ys) a
      (declareLeaves ys g s).2.nextSlot := by
  induction ys generalizing g s xs with
  | nil =>
    rw [List.append_nil]
    exact h
  | cons y ys ih =>
    have hy : y.id ∉ leafIds xs := by
      intro hm
      rw [leafIds, List.map_append, List.nodup_append] at hn
      exact hn.2.2 y.id hm y.id (List.mem_map_of_mem List.mem_cons_self) rfl
    rw [List.append_cons] at hn ⊢
    exact ih (h.declareLeaf hy) hn

theorem declareLeaves_adds (ys : List Leaf) : s.Adds (leafIds ys) (declareLeaves ys g s).2 := by
  induction ys generalizing g s with
  | nil => exact ⟨Nat.le_refl _, fun _ _ => rfl⟩
  | cons y ys ih => exact declareLeaf_adds.trans ih

/-- A group is made of the names of its patterns. -/
theorem enterGroup_resolves (ps : List Pattern) (gs : List Group) (s : Linking) :
    ∃ g, (enterGroup ps gs s).1 = g :: gs ∧
      Linking.Resolves (fun l => g.Declares l (patternsLeaves ps) s.nextSlot
        (enterGroup ps gs s).2.nextSlot) (leafIds (patternsLeaves ps)) s (enterGroup ps gs s).2 := by
  have he : enterGroup ps gs s =
      ((declareLeaves (patternsLeaves ps) [] s).1 :: gs,
        (declareLeaves (patternsLeaves ps) [] s).2) := by
    rw [← declarePatterns_eq]
    rfl
  rw [he]
  refine ⟨_, rfl, declareLeaves_adds _, fun hn _ l hl => ?_⟩
  have hnil : Group.Declares [] s.links [] s.nextSlot s.nextSlot :=
    ⟨Nat.le_refl _, nofun, nofun, nofun⟩
  exact (declareLeaves_declares _ hnil hn).congr hl

/-- Two divisions of neighbouring stretches of numbers make one. -/
theorem exists_division {F G : (Nat → Prop) → Prop}
    (hF : ∀ own own', Agree own own' a m → F own → F own')
    (hG : ∀ own own', Agree own own' m b → G own → G own') (h₁ : F own₁) (h₂ : G own₂) :
    ∃ own, F own ∧ G own := by
  refine ⟨fun n => if n < m then own₁ n else own₂ n, hF own₁ _ ?_ h₁, hG own₂ _ ?_ h₂⟩
  · intro n _ hn
    simp only [if_pos hn]
  · intro n hn _
    simp only [if_neg (Nat.not_lt.mpr hn)]

theorem exists_fills {G : (Nat → Prop) → Prop}
    (hG : ∀ own own', Agree own own' m b → G own → G own') (h : G own) :
    ∃ own, Fills own a m ∧ G own :=
  exists_division (fun _ _ ha hf => hf.congr ha) hG (fun _ _ _ => trivial : Fills (fun _ => True) a m) h

end

/-- The numbers of the occurrences in a block but for its own patterns. -/
def Block.innerIds : Block → List Nat
  | .result e => e.ids
  | .bind _ value _ rest => value.ids ++ rest.innerIds

theorem Block.ids_perm (b : Block) :
    (leafIds (patternsLeaves b.patterns) ++ b.innerIds).Perm b.ids := by
  induction b using Block.innerIds.induct with
  | case1 e => exact .refl _
  | case2 p value isPublic rest hrest =>
    simp only [Block.patterns, patternsLeaves, leafIds, List.map_append, Block.innerIds,
      Block.ids] at hrest ⊢
    rw [List.append_assoc]
    refine .append_left _ ?_
    refine List.perm_append_comm_assoc _ _ _ |>.trans (.append_left _ hrest)

section

variable {gs : List Group} {s : Linking} {body : Block}

theorem linkName_resolves (n : QName) :
    Linking.Resolves (fun l => s.nextSlot = (linkName gs n s).nextSlot ∧
      l.get? n.id = n.single?.bind (findSlot? gs)) [n.id] s (linkName gs n s) := by
  unfold linkName
  cases hf : n.single?.bind (findSlot? gs) with
  | none =>
    refine ⟨⟨Nat.le_refl _, fun _ _ => rfl⟩, fun _ hs l hl => ⟨rfl, ?_⟩⟩
    rw [hl n.id List.mem_cons_self]
    exact hs n.id List.mem_cons_self
  | some slot =>
    refine ⟨⟨Nat.le_refl _, fun id hid => ?_⟩, fun _ _ l hl => ⟨rfl, ?_⟩⟩
    · simp only [Links.get?_insert, if_neg (List.ne_of_not_mem_cons hid)]
    · rw [hl n.id List.mem_cons_self]
      simp only [Links.get?_insert, if_true]

/-- A block is linked if its body is. -/
theorem linkBlock_resolves
    (hb : ∀ gs s, Linking.Resolves
      (fun l => ∃ own, BodyLinks l body own gs s.nextSlot (linkBody gs body s).nextSlot)
      body.innerIds s (linkBody gs body s)) :
    Linking.Resolves (fun l => ∃ own,
      BlockLinks l body own gs s.nextSlot (linkBlock gs body s).nextSlot) body.ids s
      (linkBlock gs body s) := by
  obtain ⟨g, hg, h⟩ := enterGroup_resolves body.patterns gs s
  simp only [linkBlock, hg]
  refine ((h.seq (hb (g :: gs) _)).perm body.ids_perm).mono ?_
  rintro l ⟨hd, own, hb⟩
  obtain ⟨own', hf, hb⟩ := exists_fills (a := s.nextSlot)
    (fun _ _ ha h => (BodyLinks.local body h).2 _ ha) hb
  exact ⟨own', g, _, hd, hf, hb⟩

/-- Nothing is said about arms that are not functions. -/
theorem linkArms_other {e : Block} {cases : List Block} {P Q : Links → Prop}
    (hne : ∀ params body line, e ≠ .result (.function params body line))
    (he : Linking.Resolves P e.ids s (linkBlock gs e s))
    (hes : Linking.Resolves Q (blocksIds cases) (linkBlock gs e s)
      (linkElements gs cases (linkBlock gs e s))) :
    Linking.Resolves (fun l => ∃ own, ArmsLinks l (e :: cases) own gs s.nextSlot
      (linkElements gs (e :: cases) s).nextSlot) (blocksIds (e :: cases)) s
      (linkElements gs (e :: cases) s) := by
  have hle := (he.seq hes).1.le
  refine (he.seq hes).mono fun l _ => ⟨fun _ => True, ?_⟩
  rw [ArmsLinks.eq_def]
  split
  · rename_i h
    cases h
  · rename_i h
    cases h
    exact absurd rfl (hne _ _ _)
  · exact hle

/-- A function is linked if its body is. -/
theorem linkFunction_resolves {line : Nat} (params : List Pattern)
    (hb : ∀ gs s, Linking.Resolves
      (fun l => ∃ own, BodyLinks l body own gs s.nextSlot (linkBody gs body s).nextSlot)
      body.innerIds s (linkBody gs body s)) :
    Linking.Resolves (fun l => ∃ own, FunctionLinks l params body own gs s.nextSlot
        (linkExpr gs (.function params body line) s).nextSlot)
      (leafIds (patternsLeaves params) ++ body.ids) s
      (linkExpr gs (.function params body line) s) := by
  obtain ⟨g₁, hg₁, h₁⟩ := enterGroup_resolves params gs s
  obtain ⟨g₂, hg₂, h₂⟩ := enterGroup_resolves body.patterns (g₁ :: gs) (enterGroup params gs s).2
  simp only [linkExpr, hg₁, hg₂]
  refine ((h₁.seq (h₂.seq (hb (g₂ :: g₁ :: gs) _))).perm (.append_left _ body.ids_perm)).mono ?_
  rintro l ⟨hd₁, hd₂, own, hb⟩
  obtain ⟨own', hf, hb⟩ := exists_fills (a := s.nextSlot)
    (fun _ _ ha h => (BodyLinks.local body h).2 _ ha) hb
  exact ⟨own', g₁, g₂, _, _, hd₁, hd₂, hf, hb⟩

end

mutual

theorem linkExpr_resolves (e : Expr) (gs : List Group) (s : Linking) :
    Linking.Resolves (fun l => ∃ own, ExprLinks l e own gs s.nextSlot (linkExpr gs e s).nextSlot)
      e.ids s (linkExpr gs e s) := by
  match e with
  | .call callee args line =>
    simp only [linkExpr, Expr.ids]
    have hc := linkExpr_resolves callee gs s
    by_cases hm : callee.isMatchName = true
    · refine (hc.seq (linkChoice_resolves args gs (linkExpr gs callee s))).mono ?_
      rintro l ⟨⟨own₁, h₁⟩, own₂, h₂⟩
      obtain ⟨own, h₁, h₂⟩ := exists_division
        (fun _ _ ha h => (ExprLinks.local callee h).2 _ ha)
        (fun _ _ ha h => (ChoiceLinks.local args h).2 _ ha) h₁ h₂
      simp only [ExprLinks, if_pos hm]
      exact ⟨own, _, h₁, h₂⟩
    · refine (hc.seq (linkArgs_resolves args gs (linkExpr gs callee s))).mono ?_
      rintro l ⟨⟨own₁, h₁⟩, own₂, h₂⟩
      obtain ⟨own, h₁, h₂⟩ := exists_division
        (fun _ _ ha h => (ExprLinks.local callee h).2 _ ha)
        (fun _ _ ha h => (ArgsLinks.local args h).2 _ ha) h₁ h₂
      simp only [ExprLinks, if_neg hm]
      exact ⟨own, _, h₁, h₂⟩
  | .function params body line =>
    simp only [Expr.ids, exprLinks_function]
    refine (linkFunction_resolves params fun gs s => linkBody_resolves body gs s).mono ?_
    exact fun l h => ⟨fun _ => False, fun _ _ _ => id, h⟩
  | .list elements line =>
    simp only [linkExpr, Expr.ids, ExprLinks]
    exact linkElements_resolves elements gs s
  | .literal _ _ => exact .nil fun _ => ⟨fun _ => True, by simp only [ExprLinks, linkExpr]⟩
  | .name n =>
    simp only [linkExpr, Expr.ids, ExprLinks]
    exact (linkName_resolves n).mono fun l h => ⟨fun _ => True, h⟩
  | .self _ => exact .nil fun _ => ⟨fun _ => True, by simp only [ExprLinks, linkExpr]⟩

theorem linkArgs_resolves (es : List Expr) (gs : List Group) (s : Linking) :
    Linking.Resolves (fun l => ∃ own, ArgsLinks l es own gs s.nextSlot (linkArgs gs es s).nextSlot)
      (exprsIds es) s (linkArgs gs es s) := by
  match es with
  | [] => exact .nil fun _ => ⟨fun _ => True, by simp only [ArgsLinks, linkArgs]⟩
  | e :: es =>
    simp only [linkArgs, exprsIds, ArgsLinks]
    refine ((linkExpr_resolves e gs s).seq (linkArgs_resolves es gs (linkExpr gs e s))).mono ?_
    rintro l ⟨⟨own₁, h₁⟩, own₂, h₂⟩
    obtain ⟨own, h₁, h₂⟩ := exists_division (fun _ _ ha h => (ExprLinks.local e h).2 _ ha)
      (fun _ _ ha h => (ArgsLinks.local es h).2 _ ha) h₁ h₂
    exact ⟨own, _, h₁, h₂⟩

theorem linkChoice_resolves (es : List Expr) (gs : List Group) (s : Linking) :
    Linking.Resolves
      (fun l => ∃ own, ChoiceLinks l es own gs s.nextSlot (linkArgs gs es s).nextSlot)
      (exprsIds es) s (linkArgs gs es s) := by
  match es with
  | [] => exact .nil fun _ => ⟨fun _ => True, by simp only [ChoiceLinks, linkArgs, Nat.le_refl]⟩
  | [e] =>
    have he := linkExpr_resolves e gs s
    simp only [linkArgs, exprsIds, ChoiceLinks, List.append_nil]
    exact he.mono fun _ _ => ⟨fun _ => True, he.1.le⟩
  | e :: cases :: es =>
    have he := linkExpr_resolves e gs s
    have hc := linkCases_resolves cases gs (linkExpr gs e s)
    have hes := linkArgs_resolves es gs (linkExpr gs cases (linkExpr gs e s))
    simp only [linkArgs, exprsIds, ChoiceLinks]
    refine (he.seq (hc.seq hes)).mono ?_
    rintro l ⟨⟨own₁, h₁⟩, ⟨own₂, h₂⟩, _⟩
    obtain ⟨own, h₁, h₂⟩ := exists_division (fun _ _ ha h => (ExprLinks.local e h).2 _ ha)
      (fun _ _ ha h => (CasesLinks.local cases h).2 _ ha) h₁ h₂
    exact ⟨own, _, _, h₁, h₂, hes.1.le⟩

theorem linkCases_resolves (e : Expr) (gs : List Group) (s : Linking) :
    Linking.Resolves (fun l => ∃ own, CasesLinks l e own gs s.nextSlot (linkExpr gs e s).nextSlot)
      e.ids s (linkExpr gs e s) := by
  match e with
  | .list cases _ =>
    simp only [linkExpr, Expr.ids, CasesLinks]
    exact linkArms_resolves cases gs s
  | .call callee args _ =>
    have h := (linkExpr_resolves callee gs s).seq (linkArgs_resolves args gs (linkExpr gs callee s))
    simp only [linkExpr, Expr.ids, CasesLinks]
    exact h.mono fun _ _ => ⟨fun _ => True, h.1.le⟩
  | .function params body line =>
    have h := @linkFunction_resolves gs s body line params
      fun gs s => linkBody_resolves body gs s
    simp only [Expr.ids, CasesLinks]
    exact h.mono fun _ _ => ⟨fun _ => True, h.1.le⟩
  | .literal _ _ =>
    exact .nil fun _ => ⟨fun _ => True, by simp only [CasesLinks, linkExpr, Nat.le_refl]⟩
  | .name n =>
    have h := @linkName_resolves gs s n
    simp only [linkExpr, Expr.ids, CasesLinks]
    exact h.mono fun _ _ => ⟨fun _ => True, h.1.le⟩
  | .self _ => exact .nil fun _ => ⟨fun _ => True, by simp only [CasesLinks, linkExpr, Nat.le_refl]⟩

theorem linkElements_resolves (es : List Block) (gs : List Group) (s : Linking) :
    Linking.Resolves
      (fun l => ∃ own, ElementsLinks l es own gs s.nextSlot (linkElements gs es s).nextSlot)
      (blocksIds es) s (linkElements gs es s) := by
  match es with
  | [] => exact .nil fun _ => ⟨fun _ => True, by simp only [ElementsLinks, linkElements]⟩
  | e :: es =>
    have he := @linkBlock_resolves gs s e fun gs s => linkBody_resolves e gs s
    have hes := linkElements_resolves es gs (linkBlock gs e s)
    simp only [elementsLinks_cons]
    refine (he.seq hes).mono ?_
    rintro l ⟨⟨own₁, h₁⟩, own₂, h₂⟩
    obtain ⟨own, h₁, h₂⟩ := exists_division (fun _ _ ha h => (BlockLinks.local h).2 _ ha)
      (fun _ _ ha h => (ElementsLinks.local es h).2 _ ha) h₁ h₂
    exact ⟨own, _, h₁, h₂⟩

theorem linkArms_resolves (es : List Block) (gs : List Group) (s : Linking) :
    Linking.Resolves
      (fun l => ∃ own, ArmsLinks l es own gs s.nextSlot (linkElements gs es s).nextSlot)
      (blocksIds es) s (linkElements gs es s) := by
  match es with
  | [] => exact .nil fun _ => ⟨fun _ => True, by simp only [ArmsLinks, linkElements]⟩
  | .result (.function params body line) :: cases =>
    have hf := @linkFunction_resolves ([] :: gs) s body line params
      fun gs s => linkBody_resolves body gs s
    have hes := linkArms_resolves cases gs (linkExpr ([] :: gs) (.function params body line) s)
    simp only [armsLinks_cons]
    refine (hf.seq hes).mono ?_
    rintro l ⟨⟨own₁, h₁⟩, own₂, h₂⟩
    obtain ⟨own, h₁, h₂⟩ := exists_division (fun _ _ ha h => (FunctionLinks.local h).2 _ ha)
      (fun _ _ ha h => (ArmsLinks.local cases h).2 _ ha) h₁ h₂
    exact ⟨own, _, h₁, h₂⟩
  | .bind _ _ _ _ :: cases | .result (.call _ _ _) :: cases | .result (.list _ _) :: cases
  | .result (.literal _ _) :: cases | .result (.name _) :: cases | .result (.self _) :: cases =>
    exact linkArms_other nofun (linkBlock_resolves fun gs s => linkBody_resolves _ gs s)
      (linkArms_resolves cases gs _)

theorem linkBody_resolves (b : Block) (gs : List Group) (s : Linking) :
    Linking.Resolves (fun l => ∃ own, BodyLinks l b own gs s.nextSlot (linkBody gs b s).nextSlot)
      b.innerIds s (linkBody gs b s) := by
  match b with
  | .result e =>
    simp only [linkBody, Block.innerIds, BodyLinks]
    exact linkExpr_resolves e gs s
  | .bind p value _ rest =>
    have hv := @linkBlock_resolves gs s value fun gs s => linkBody_resolves value gs s
    have hr := linkBody_resolves rest gs (linkBlock gs value s)
    simp only [bodyLinks_bind]
    refine (hv.seq hr).mono ?_
    rintro l ⟨⟨own₁, h₁⟩, own₂, h₂⟩
    obtain ⟨own, h₁, h₂⟩ := exists_division (fun _ _ ha h => (BlockLinks.local h).2 _ ha)
      (fun _ _ ha h => (BodyLinks.local rest h).2 _ ha) h₁ h₂
    exact ⟨own, _, h₁, h₂⟩

end

section

variable {l : Links}

mutual

theorem DeclsLinks.local (ds : List Decl) {own : Nat → Prop} {gs : List Group} {a b : Nat}
    (h : DeclsLinks l ds own gs a b) :
    a ≤ b ∧ ∀ own', Agree own own' a b → DeclsLinks l ds own' gs a b := by
  match ds with
  | [] =>
    simp only [DeclsLinks] at h ⊢
    exact ⟨Nat.le_of_eq h, fun _ _ => h⟩
  | d :: ds =>
    simp only [DeclsLinks] at h ⊢
    obtain ⟨m, hd, hds⟩ := h
    obtain ⟨hle, hd⟩ := DeclLinks.local d hd
    obtain ⟨hle', hds⟩ := DeclsLinks.local ds hds
    exact ⟨by omega, fun own' ha => ⟨m, hd own' (ha.sub (Nat.le_refl _) hle'),
      hds own' (ha.sub hle (Nat.le_refl _))⟩⟩

theorem DeclLinks.local (d : Decl) {own : Nat → Prop} {gs : List Group} {a b : Nat}
    (h : DeclLinks l d own gs a b) :
    a ≤ b ∧ ∀ own', Agree own own' a b → DeclLinks l d own' gs a b := by
  match d with
  | .space ns | .type _ _ _ (some ns) =>
    simp only [DeclLinks] at h ⊢
    exact NamespaceLinks.local ns h
  | .type _ _ _ none =>
    simp only [DeclLinks] at h ⊢
    exact ⟨Nat.le_of_eq h, fun _ _ => h⟩
  | .binding _ value _ =>
    simp only [DeclLinks] at h ⊢
    exact h.local

theorem NamespaceLinks.local (ns : NamespaceDecl) {own : Nat → Prop} {gs : List Group} {a b : Nat}
    (h : NamespaceLinks l ns own gs a b) :
    a ≤ b ∧ ∀ own', Agree own own' a b → NamespaceLinks l ns own' gs a b := by
  match ns with
  | .mk _ _ decls =>
    simp only [NamespaceLinks] at h ⊢
    obtain ⟨g, m, hg, hf, hds⟩ := h
    have hle := hg.le
    obtain ⟨hle', hds⟩ := DeclsLinks.local decls hds
    exact ⟨by omega, fun own' ha => ⟨g, m, hg, hf.congr (ha.sub (Nat.le_refl _) hle'),
      hds own' (ha.sub hle (Nat.le_refl _))⟩⟩

end

end

/-- The numbers of the occurrences in a declaration but for the pattern of a binding. -/
def Decl.innerIds : Decl → List Nat
  | .binding _ value _ => value.ids
  | d => d.ids

def declsInnerIds : List Decl → List Nat
  | [] => []
  | d :: ds => d.innerIds ++ declsInnerIds ds

theorem declsIds_perm (ds : List Decl) :
    (leafIds (patternsLeaves (bindingPatterns ds)) ++ declsInnerIds ds).Perm (declsIds ds) := by
  induction ds with
  | nil => exact .refl _
  | cons d ds ih =>
    have hmove : ∀ xs ys zs : List Nat, (xs ++ (ys ++ zs)).Perm (ys ++ (xs ++ zs)) :=
      fun xs ys zs => List.perm_append_comm_assoc xs ys zs
    match d with
    | .binding p value isPublic =>
      simp only [bindingPatterns, List.filterMap_cons, patternsLeaves, leafIds, List.map_append,
        declsInnerIds, Decl.innerIds, declsIds, Decl.ids, List.append_assoc] at ih ⊢
      exact .append_left _ ((hmove _ _ _).trans (.append_left _ ih))
    | .space ns =>
      simp only [bindingPatterns, List.filterMap_cons, declsInnerIds, Decl.innerIds, declsIds,
        Decl.ids] at ih ⊢
      exact (hmove _ _ _).trans (.append_left _ ih)
    | .type _ _ _ (some ns) =>
      simp only [bindingPatterns, List.filterMap_cons, declsInnerIds, Decl.innerIds, declsIds,
        Decl.ids] at ih ⊢
      exact (hmove _ _ _).trans (.append_left _ ih)
    | .type _ _ _ none =>
      simp only [bindingPatterns, List.filterMap_cons, declsInnerIds, Decl.innerIds, declsIds,
        Decl.ids, List.nil_append] at ih ⊢
      exact ih

mutual

theorem linkDecls_resolves (ds : List Decl) (gs : List Group) (s : Linking) :
    Linking.Resolves
      (fun l => ∃ own, DeclsLinks l ds own gs s.nextSlot (linkDecls gs ds s).nextSlot)
      (declsInnerIds ds) s (linkDecls gs ds s) := by
  match ds with
  | [] => exact .nil fun _ => ⟨fun _ => True, by simp only [DeclsLinks, linkDecls]⟩
  | d :: ds =>
    simp only [linkDecls, declsInnerIds, DeclsLinks]
    refine ((linkDecl_resolves d gs s).seq (linkDecls_resolves ds gs (linkDecl gs d s))).mono ?_
    rintro l ⟨⟨own₁, h₁⟩, own₂, h₂⟩
    obtain ⟨own, h₁, h₂⟩ := exists_division (fun _ _ ha h => (DeclLinks.local d h).2 _ ha)
      (fun _ _ ha h => (DeclsLinks.local ds h).2 _ ha) h₁ h₂
    exact ⟨own, _, h₁, h₂⟩

theorem linkDecl_resolves (d : Decl) (gs : List Group) (s : Linking) :
    Linking.Resolves (fun l => ∃ own, DeclLinks l d own gs s.nextSlot (linkDecl gs d s).nextSlot)
      d.innerIds s (linkDecl gs d s) := by
  match d with
  | .space ns =>
    simp only [linkDecl, Decl.innerIds, Decl.ids, DeclLinks]
    exact linkNamespace_resolves ns gs s
  | .type _ _ _ (some ns) =>
    simp only [linkDecl, Decl.innerIds, Decl.ids, DeclLinks]
    exact linkNamespace_resolves ns gs s
  | .type _ _ _ none => exact .nil fun _ => ⟨fun _ => True, by simp only [DeclLinks, linkDecl]⟩
  | .binding _ value _ =>
    simp only [linkDecl, Decl.innerIds, DeclLinks]
    exact linkBlock_resolves fun gs s => linkBody_resolves value gs s

theorem linkNamespace_resolves (ns : NamespaceDecl) (gs : List Group) (s : Linking) :
    Linking.Resolves
      (fun l => ∃ own, NamespaceLinks l ns own gs s.nextSlot (linkNamespace gs ns s).nextSlot)
      ns.ids s (linkNamespace gs ns s) := by
  match ns with
  | .mk _ _ decls =>
    obtain ⟨g, hg, h⟩ := enterGroup_resolves (bindingPatterns decls) gs s
    simp only [linkNamespace, NamespaceDecl.ids, NamespaceLinks, hg]
    have hds := linkDecls_resolves decls (g :: gs) (enterGroup (bindingPatterns decls) gs s).2
    refine ((h.seq hds).perm (declsIds_perm decls)).mono ?_
    rintro l ⟨hd, own, hds⟩
    obtain ⟨own', hf, hds⟩ := exists_fills (a := s.nextSlot)
      (fun _ _ ha h => (DeclsLinks.local decls h).2 _ ha) hds
    exact ⟨own', g, _, hd, hf, hds⟩

end

/-- Where all occurrences of a program are different, linking makes every one of them mean what the
groups around it say, whatever slots have been given out before. -/
theorem Program.link_resolves (p : Program) (n : Nat) (hp : p.ids.Nodup) :
    ∃ own, ProgramLinks (p.link n).links p own n (p.link n).nextSlot := by
  obtain ⟨g, hg, h⟩ := enterGroup_resolves (bindingPatterns p.root.decls) [] ⟨.empty, n⟩
  have hds := linkDecls_resolves p.root.decls [g]
    (enterGroup (bindingPatterns p.root.decls) [] ⟨.empty, n⟩).2
  have hroot := (h.seq hds).perm (declsIds_perm p.root.decls)
  have hids : p.root.ids = declsIds p.root.decls := by
    obtain ⟨_, _, decls⟩ := p.root
    rfl
  have hnone : ∀ id, (Links.empty).get? id = none := fun _ => rfl
  unfold Program.ids at hp
  rw [hids] at hp
  have henter : enterGroup (bindingPatterns p.root.decls) [] ⟨.empty, n⟩ =
      ([g], (enterGroup (bindingPatterns p.root.decls) [] ⟨.empty, n⟩).2) := Prod.ext hg rfl
  generalize (enterGroup (bindingPatterns p.root.decls) [] ⟨.empty, n⟩).2 = s at *
  unfold Program.link ProgramLinks
  rw [henter]
  cases hc : p.trailing with
  | none =>
    rw [hc, List.append_nil] at hp
    obtain ⟨hd, own, hds⟩ := hroot.2 hp (fun id _ => hnone id) _ fun _ _ => rfl
    obtain ⟨own', hf, hds⟩ := exists_fills (a := n)
      (fun _ _ ha h => (DeclsLinks.local p.root.decls h).2 _ ha) hds
    exact ⟨own', g, _, _, hd, hf, hds, rfl⟩
  | some c =>
    rw [hc] at hp
    have hcall := linkExpr_resolves c.toExpr [g] (linkDecls [g] p.root.decls s)
    obtain ⟨⟨hd, own₁, hds⟩, own₂, he⟩ :=
      (hroot.seq hcall).2 hp (fun id _ => hnone id) _ fun _ _ => rfl
    obtain ⟨own, hds, he⟩ := exists_division
      (fun _ _ ha h => (DeclsLinks.local p.root.decls h).2 _ ha)
      (fun _ _ ha h => (ExprLinks.local c.toExpr h).2 _ ha) hds he
    have hle := (DeclsLinks.local p.root.decls hds).1
    have hle' := (ExprLinks.local c.toExpr he).1
    obtain ⟨own', hf, hds, he⟩ := exists_fills (a := n)
      (fun _ _ ha h => And.intro
        ((DeclsLinks.local p.root.decls (And.left h)).2 _ (ha.sub (Nat.le_refl _) hle'))
        ((ExprLinks.local c.toExpr (And.right h)).2 _ (ha.sub hle (Nat.le_refl _))))
      (And.intro hds he)
    exact ⟨own', g, _, _, hd, hf, hds, he⟩

end MatchLang
