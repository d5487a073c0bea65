import MatchLang.Proofs.Grammar.Numbering
import MatchLang.Proofs.Lowering.Region

/-! Lowering follows the text. All names of a group are saved by the code of the form that has the group; so what is
read under a name is saved in the unit that declares it, which has the slot for itself. -/

namespace MatchLang

section

variable {l : Links} {r : Region} {gs : List Group} {g : Group} {a b m n : Nat} {xs ys : List Leaf}

@[simp] theorem Links.gives_nil : l.Gives [] n ↔ False := by simp [Gives]

@[simp] theorem Links.gives_append : l.Gives (xs ++ ys) n ↔ l.Gives xs n ∨ l.Gives ys n := by
  simp only [Gives, List.mem_append]
  constructor
  · rintro ⟨x, hx | hx, h⟩
    · exact .inl ⟨x, hx, h⟩
    · exact .inr ⟨x, hx, h⟩
  · rintro (⟨x, hx, h⟩ | ⟨x, hx, h⟩)
    · exact ⟨x, .inl hx, h⟩
    · exact ⟨x, .inr hx, h⟩

/-- The names of a group have slots of the unit. -/
theorem Group.Declares.owns (hd : g.Declares l xs a m) (hf : Fills r.own a m) (hlo : r.lo ≤ a) (hhi : m ≤ r.hi)
    (hn : l.Gives xs n) : r.Owns n := by
  obtain ⟨x, hx, slot, hs, rfl⟩ := hn
  obtain ⟨slot', hs', hg⟩ := hd.leaf x hx
  obtain rfl : slot = slot' := Option.some.inj (hs.symm.trans hs')
  obtain ⟨-, ha, hm, -⟩ := hd.entry x.name slot hg
  exact ⟨Nat.le_trans hlo ha, Nat.lt_of_lt_of_le hm hhi, hf _ ha hm⟩

/-- A group has only slots of its names. -/
theorem Group.Declares.gives (hd : g.Declares l xs a m) (hn : g.Has n) : l.Gives xs n := by
  obtain ⟨name, slot, hg, rfl⟩ := hn
  obtain ⟨-, -, -, x, hx, rfl⟩ := hd.entry name slot hg
  obtain ⟨slot', hs, hg'⟩ := hd.leaf x hx
  obtain rfl : slot = slot' := Option.some.inj (hg.symm.trans hg')
  exact ⟨x, hx, slot, hs, rfl⟩

namespace Region.Covers

theorem sub {a' b' : Nat} (h : r.Covers gs a b) (ha : a ≤ a') (hb : b' ≤ b) : r.Covers gs a' b' :=
  ⟨h.reach, Nat.le_trans h.lo ha, Nat.le_trans hb h.hi⟩

/-- With one more group in reach the others still are. -/
theorem stay (h : r.Covers gs a b) : (r.within g).Covers gs a b :=
  ⟨fun g' hg n hn => .inl (h.reach g' hg n hn), h.lo, h.hi⟩

theorem enter (h : r.Covers gs a b) : (r.within g).Covers (g :: gs) a b where
  reach g' hg n hn := by
    rcases List.mem_cons.mp hg with rfl | hg
    · exact .inr hn
    · exact .inl (h.reach g' hg n hn)
  lo := h.lo
  hi := h.hi

/-- A group without names changes nothing. -/
theorem cons_nil (h : r.Covers gs a b) : r.Covers ([] :: gs) a b where
  reach g' hg n hn := by
    rcases List.mem_cons.mp hg with rfl | hg
    · obtain ⟨name, slot, hs, -⟩ := hn
      cases hs
    · exact h.reach g' hg n hn
  lo := h.lo
  hi := h.hi

/-- What a name is linked to is in reach. -/
theorem linked {q : QName} {slot : Slot} (h : r.Covers gs a b) (hs : q.single?.bind (findSlot? gs) = some slot) :
    r.reach slot.id := by
  obtain ⟨name, -, hf⟩ := Option.bind_eq_some_iff.mp hs
  obtain ⟨g, hg, hl⟩ := List.exists_of_findSome?_eq_some hf
  exact h.reach g hg _ ⟨name, slot, hl, rfl⟩

end Region.Covers

end

section

open Emitter

variable {l : Links} {publishAt : Option (List String)} {r : Region} {before : Nat → Prop} {line : Nat}

theorem storeName_keeps {id : Nat} {name : String} (h : ∀ slot, l.get? id = some slot → r.Owns slot.id) :
    Keeps r before (storeName l publishAt id name line) fun _ n => ∃ slot, l.get? id = some slot ∧ slot.id = n := by
  unfold storeName
  cases hs : l.get? id with
  | none => exact .reject
  | some slot =>
    have hsave : ∀ before, Keeps r before (emit line (.saveLocal slot))
        fun _ n => ∃ slot', some slot = some slot' ∧ slot'.id = n := fun before =>
      (emit_save_keeps (h slot hs)).mono (fun _ hn => hn) fun _ n hn => by
        obtain ⟨slot', he, rfl⟩ := hn
        cases he
        exact .inl rfl
    cases publishAt with
    | none => exact hsave before
    | some path =>
      exact .bind (emit_stays rfl) fun _ => .bind (emit_stays rfl) fun _ =>
        hsave _

mutual

/-- A pattern saves all its names. -/
theorem storePattern_keeps (p : Pattern) (line : Nat) {before : Nat → Prop} (h : ∀ n, l.Gives p.leaves n → r.Owns n) :
    Keeps r before (storePattern l publishAt p line) fun _ => l.Gives p.leaves := by
  match p with
  | .wildcard | .literal _ _ =>
    exact (emit_stays rfl).mono (fun _ hn => hn) fun _ n hn => .inl (Links.gives_nil.mp hn)
  | .name id name nameLine =>
    refine (storeName_keeps fun slot hs => h _ ⟨_, List.mem_singleton.mpr rfl, slot, hs, rfl⟩).mono (fun _ hn => hn) ?_
    rintro _ n ⟨x, hx, slot, hs, rfl⟩
    cases List.mem_singleton.mp hx
    exact .inl ⟨slot, hs, rfl⟩
  | .list items => exact storeItems_keeps items line h
  | .type q params => exact .bind (emit_stays rfl) fun _ => storePatterns_keeps params q.line h

theorem storeItems_keeps (ps : List Pattern) (line : Nat) {before : Nat → Prop}
    (h : ∀ n, l.Gives (patternsLeaves ps) n → r.Owns n) :
    Keeps r before (storeItems l publishAt ps line) fun _ => l.Gives (patternsLeaves ps) := by
  match ps with
  | [] => exact (emit_stays rfl).mono (fun _ hn => hn) fun _ n hn => .inl (Links.gives_nil.mp hn)
  | p :: ps =>
    refine .bind (emit_stays rfl) fun _ =>
      .bind (storePattern_keeps p line fun n hn => h n (Links.gives_append.mpr (.inl hn))) fun _ => ?_
    refine (storeItems_keeps ps line fun n hn => h n (Links.gives_append.mpr (.inr hn))).mono (fun _ hn => hn) ?_
    exact fun _ n hn => (Links.gives_append.mp hn).symm.imp_right .inr

theorem storePatterns_keeps (ps : List Pattern) (line : Nat) {before : Nat → Prop}
    (h : ∀ n, l.Gives (patternsLeaves ps) n → r.Owns n) :
    Keeps r before (storePatterns l publishAt ps line) fun _ => l.Gives (patternsLeaves ps) := by
  match ps with
  | [] => exact .pure fun n hn => (Links.gives_nil.mp hn).elim
  | p :: ps =>
    refine .bind (storePattern_keeps p line fun n hn => h n (Links.gives_append.mpr (.inl hn))) fun _ => ?_
    refine (storePatterns_keeps ps line fun n hn => h n (Links.gives_append.mpr (.inr hn))).mono (fun _ hn => hn) ?_
    exact fun _ n hn => (Links.gives_append.mp hn).symm.imp_right .inr

end

theorem emitCons_stays : Stays r before (emitCons line) :=
  .bind (emit_stays rfl) fun _ => emit_stays rfl

theorem armLabels_stays (arms : List Arm) {before : Nat → Prop} : Stays r before (armLabels arms) := by
  induction arms generalizing before with
  | nil => exact .pure fun _ => False.elim
  | cons a as ih => exact .bind freshLabel_stays fun _ => .bind ih fun _ => .pure fun _ => False.elim

theorem emitTests_stays (arms : List Arm) (labels : List Nat) {before : Nat → Prop} :
    Stays r before (emitTests arms labels) := by
  induction arms generalizing labels before with
  | nil => exact .pure fun _ => False.elim
  | cons a as ih =>
    cases labels with
    | nil => exact .pure fun _ => False.elim
    | cons label labels =>
      exact .bind (emit_stays rfl) fun _ => .bind (emit_stays rfl) fun _ => ih labels

/-- Items are read from where they have been saved. -/
theorem emitItems_stays (slots : List Slot) {before : Nat → Prop} (h : ∀ slot ∈ slots, before slot.id) :
    Stays r before (emitItems line slots) := by
  induction slots generalizing before with
  | nil => exact .pure fun _ => False.elim
  | cons slot slots ih =>
    obtain ⟨hslot, hslots⟩ := List.forall_mem_cons.mp h
    exact .bind (ih hslots) fun _ => .bind (emit_load_stays (.inr (.inl hslot))) fun _ => emitCons_stays

theorem lowerLiteral_stays {value : Literal} : Stays r before (lowerLiteral value line) := by
  cases value <;> exact emit_stays rfl

theorem lowerName_stays {q : QName} (h : ∀ slot, l.get? q.id = some slot → r.reach slot.id) :
    Stays r before (lowerName l q) := by
  unfold lowerName QName.op
  cases hs : l.get? q.id with
  | none => exact emit_stays rfl
  | some slot => exact emit_load_stays (.inl (h slot hs))

/-- The names of a block are in reach in it, and saved where it ends. -/
theorem lowerGroup_stays {e : Block} {gs : List Group} {a b : Nat} (hl : BlockLinks l e r.own gs a b)
    (hc : r.Covers gs a b)
    (h : ∀ {r : Region} {gs : List Group} {a b : Nat}, BodyLinks l e r.own gs a b → r.Covers gs a b →
      (∀ n, l.Gives (patternsLeaves e.patterns) n → r.Owns n) →
      Keeps r before (lowerBlock l e false) fun _ => l.Gives (patternsLeaves e.patterns)) :
    Stays r before (lowerBlock l e false) := by
  obtain ⟨g, m, hd, hf, hb⟩ := hl
  have hle := (BodyLinks.local e hb).1
  have hhi := hc.hi
  have hbody := h (r := r.within g) hb (hc.enter.sub hd.le (Nat.le_refl _))
    fun n hn => hd.owns hf hc.lo (Nat.le_trans hle hhi) hn
  exact (hbody.leave fun _ n hn => hd.gives hn).mono (fun _ hn => hn) fun _ _ hn => hn.elim

mutual

theorem lowerExpr_stays (e : Expr) (allowTail : Bool) {r : Region} {gs : List Group} {a b : Nat}
    {before : Nat → Prop} (hl : ExprLinks l e r.own gs a b) (hc : r.Covers gs a b)
    (ht : allowTail = true → r.tail = true) : Stays r before (lowerExpr l e allowTail) := by
  match e with
  | .call callee args line =>
    simp only [ExprLinks] at hl
    obtain ⟨m, hcallee, hargs⟩ := hl
    have hle := (ExprLinks.local callee hcallee).1
    unfold lowerExpr
    split
    · rename_i hm
      rw [if_pos hm] at hargs
      split
      · rename_i scrutinee cases caseLine
        simp only [ChoiceLinks, CasesLinks] at hargs
        obtain ⟨k, k', hs, hcases, hk⟩ := hargs
        have hle₁ := (ExprLinks.local scrutinee hs).1
        have hle₂ := (ArmsLinks.local cases hcases).1
        exact .bind .lift fun arms => .bind (lowerExpr_stays scrutinee false hs (hc.sub hle (by omega)) nofun) fun _ =>
          .bind freshLabel_stays fun done => .bind (armLabels_stays arms) fun labels =>
          .bind (emitTests_stays arms labels) fun _ => .bind (emit_stays rfl) fun _ =>
          .bind (lowerArms_stays cases labels done allowTail hcases (hc.sub (by omega) hk) ht) fun _ =>
          .bind attach_stays fun _ => emit_stays rfl
      · exact .reject
      · exact .reject
    · rename_i hm
      rw [if_neg hm] at hargs
      have hle' := (ArgsLinks.local args hargs).1
      refine .bind (lowerArgs_stays args hargs (hc.sub hle (Nat.le_refl _))) fun _ => ?_
      split
      · split
        · rename_i htail
          exact emit_tailCall_stays (ht htail)
        · exact .reject
      · exact .bind (lowerExpr_stays callee false hcallee (hc.sub (Nat.le_refl _) hle') nofun) fun _ =>
          emit_stays rfl
  | .function params body line =>
    obtain ⟨hav, own, g₁, g₂, m₁, m₂, h₁, h₂, hf, hb⟩ := exprLinks_function.mp hl
    have hle₁ := h₁.le
    have hle₂ := h₂.le
    have hle := (BodyLinks.local body hb).1
    have hfill₁ : Fills own a m₁ := fun n hn hlt => hf n hn (Nat.lt_of_lt_of_le hlt hle₂)
    have hfill₂ : Fills own m₁ m₂ := fun n hn hlt => hf n (Nat.le_trans hle₁ hn) hlt
    have hcovers : Region.Covers { reach := r.reach, own, lo := a, hi := b, tail := true } gs a b :=
      ⟨hc.reach, Nat.le_refl _, Nat.le_refl _⟩
    have hunit : Keeps
        (Region.within (Region.within { reach := r.reach, own, lo := a, hi := b, tail := true } g₁) g₂)
        (fun _ => False) (storePatterns l none params line >>= fun _ => lowerBlock l body true)
        fun _ n => l.Gives (patternsLeaves params) n ∨ l.Gives (patternsLeaves body.patterns) n := by
      refine .bind (storePatterns_keeps params line fun n hn => h₁.owns hfill₁ (Nat.le_refl _)
        (show m₁ ≤ b by omega) hn) fun _ => ?_
      refine (lowerBlock_keeps body true hb (hcovers.enter.enter.sub (show a ≤ m₂ by omega) (Nat.le_refl _))
        (fun n hn => h₂.owns hfill₂ hle₁ (show m₂ ≤ b by omega) hn) fun _ => rfl).mono (fun _ hn => hn) ?_
      exact fun _ n hn => hn.symm.imp_right .inr
    have hfunction := (hunit.leave fun _ n hn => .inr (h₂.gives hn)).leave fun _ n hn => .inl (h₁.gives hn)
    unfold lowerExpr
    exact makeFunction_stays hc.lo hc.hi hav hfunction
  | .list elements line =>
    simp only [ExprLinks] at hl
    unfold lowerExpr
    refine .ite (.bind (emit_stays rfl) fun _ => lowerPure_stays elements line hl hc) ?_
    refine .bind (lowerItems_keeps elements line hl hc) fun slots => .bind (emit_stays rfl) fun _ =>
      emitItems_stays slots fun slot hs => .inl (.inr ⟨slot, hs, rfl⟩)
  | .literal value line =>
    unfold lowerExpr
    exact lowerLiteral_stays
  | .name q =>
    simp only [ExprLinks] at hl
    unfold lowerExpr
    exact lowerName_stays fun slot hs => hc.linked (hl.2.symm.trans hs)
  | .self line =>
    unfold lowerExpr
    exact .reject

theorem lowerArgs_stays (es : List Expr) {r : Region} {gs : List Group} {a b : Nat} {before : Nat → Prop}
    (hl : ArgsLinks l es r.own gs a b) (hc : r.Covers gs a b) : Stays r before (lowerArgs l es) := by
  match es with
  | [] => exact .pure fun _ => False.elim
  | e :: es =>
    simp only [ArgsLinks] at hl
    obtain ⟨m, he, hes⟩ := hl
    have hle := (ExprLinks.local e he).1
    have hle' := (ArgsLinks.local es hes).1
    exact .bind (lowerArgs_stays es hes (hc.sub hle (Nat.le_refl _))) fun _ =>
      lowerExpr_stays e false he (hc.sub (Nat.le_refl _) hle') nofun

theorem lowerPure_stays (bs : List Block) (line : Nat) {r : Region} {gs : List Group} {a b : Nat}
    {before : Nat → Prop} (hl : ElementsLinks l bs r.own gs a b) (hc : r.Covers gs a b) :
    Stays r before (lowerPure l bs line) := by
  match bs with
  | [] => exact .pure fun _ => False.elim
  | e :: es =>
    obtain ⟨m, he, hes⟩ := elementsLinks_cons.mp hl
    have hle := he.local.1
    have hle' := (ElementsLinks.local es hes).1
    exact .bind (lowerPure_stays es line hes (hc.sub hle (Nat.le_refl _))) fun _ =>
      .bind (lowerGroup_stays he (hc.sub (Nat.le_refl _) hle') fun hb hc hp => lowerBlock_keeps e false hb hc hp nofun)
        fun _ => emitCons_stays

theorem lowerItems_keeps (bs : List Block) (line : Nat) {r : Region} {gs : List Group} {a b : Nat}
    {before : Nat → Prop} (hl : ElementsLinks l bs r.own gs a b) (hc : r.Covers gs a b) :
    Keeps r before (lowerItems l bs line) fun slots n => ∃ slot ∈ slots, slot.id = n := by
  match bs with
  | [] => exact .pure nofun
  | e :: es =>
    obtain ⟨m, he, hes⟩ := elementsLinks_cons.mp hl
    have hle := he.local.1
    have hle' := (ElementsLinks.local es hes).1
    refine .bind (lowerGroup_stays he (hc.sub (Nat.le_refl _) hle') fun hb hc hp => lowerBlock_keeps e false hb hc hp nofun)
      fun _ => ?_
    intro s slots t hrun _
    obtain ⟨slot, s₁, h₁, hrun⟩ := bind_eq_ok hrun
    obtain ⟨_, s₂, h₂, hrun⟩ := bind_eq_ok hrun
    obtain ⟨rest, s₃, h₃, hrun⟩ := bind_eq_ok hrun
    obtain ⟨rfl, rfl⟩ := pure_eq_ok hrun
    obtain ⟨hkeep, hslot, -⟩ := saveItem_keeps (r := r) h₁ h₂
    have hitems : Keeps r (fun _ => False) (lowerItems l es line) fun slots n => ∃ slot ∈ slots, slot.id = n :=
      lowerItems_keeps es line hes (hc.sub hle (Nat.le_refl _))
    obtain ⟨hkeep', hrest, hlex⟩ := hitems s₂ rest t h₃ nofun
    refine ⟨fun n hn => hkeep' n (hkeep n hn), ?_, fun reach i hr hs => ?_⟩
    · rintro n ⟨slot', hmem, rfl⟩
      rcases List.mem_cons.mp hmem with rfl | hmem
      · exact hkeep' _ hslot
      · exact hrest _ ⟨slot', hmem, rfl⟩
    · exact hlex reach i hr ((saveItem_keeps h₁ h₂).2.2 i hs)

theorem lowerArms_stays (cases : List Block) (labels : List Nat) (done : Nat) (allowTail : Bool) {r : Region}
    {gs : List Group} {a b : Nat} {before : Nat → Prop} (hl : ArmsLinks l cases r.own gs a b)
    (hc : r.Covers gs a b) (ht : allowTail = true → r.tail = true) :
    Stays r before (lowerArms l cases labels done allowTail) := by
  unfold lowerArms
  split
  · rename_i pattern body line cases label labels
    obtain ⟨m, ⟨g₁, g₂, m₁, m₂, h₁, h₂, hf, hb⟩, hcases⟩ := armsLinks_cons.mp hl
    have hle₁ := h₁.le
    have hle₂ := h₂.le
    have hle := (BodyLinks.local body hb).1
    have hle' := (ArmsLinks.local cases hcases).1
    have hlo := hc.lo
    have hhi := hc.hi
    refine .bind attach_stays fun _ => ?_
    have hleaves : patternsLeaves [pattern] = pattern.leaves := List.append_nil _
    rw [hleaves] at h₁
    have hfill₁ : Fills r.own a m₁ := fun n hn hlt => hf n hn (Nat.lt_of_lt_of_le hlt hle₂)
    have hfill₂ : Fills r.own m₁ m₂ := fun n hn hlt => hf n (Nat.le_trans hle₁ hn) hlt
    have harm : ∀ before, Keeps ((r.within g₁).within g₂) before
        (storePattern l none pattern line >>= fun _ => lowerBlock l body allowTail >>= fun _ =>
          emit line (.jump done) >>= fun _ => lowerArms l cases labels done allowTail)
        fun _ n => l.Gives pattern.leaves n ∨ l.Gives (patternsLeaves body.patterns) n := by
      intro before
      refine .bind (storePattern_keeps pattern line fun n hn => h₁.owns hfill₁ hlo
        (show m₁ ≤ r.hi by omega) hn) fun _ => ?_
      refine .bind (lowerBlock_keeps body allowTail hb (hc.cons_nil.enter.enter.sub (by omega) hle')
        (fun n hn => h₂.owns hfill₂ (show r.lo ≤ m₁ by omega) (show m₂ ≤ r.hi by omega) hn) ht) fun _ => ?_
      refine .bind (emit_stays rfl) fun _ => ?_
      have hrest : Region.Covers ((r.within g₁).within g₂) gs m b :=
        hc.stay.stay.sub (by omega) (Nat.le_refl _)
      refine (lowerArms_stays (r := (r.within g₁).within g₂) cases labels done allowTail hcases hrest ht).mono (fun _ hn => hn) fun _ n hn => ?_
      exact .inr (.inl (hn.elim (fun hn => .inl (.inr hn)) .inr))
    exact (((harm _).leave fun _ n hn => .inr (h₂.gives hn)).leave fun _ n hn => .inl (h₁.gives hn)).mono
      (fun _ hn => hn) fun _ _ hn => hn.elim
  · exact .pure fun _ => False.elim

theorem lowerBlock_keeps (e : Block) (allowTail : Bool) {r : Region} {gs : List Group} {a b : Nat}
    {before : Nat → Prop} (hl : BodyLinks l e r.own gs a b) (hc : r.Covers gs a b)
    (hp : ∀ n, l.Gives (patternsLeaves e.patterns) n → r.Owns n) (ht : allowTail = true → r.tail = true) :
    Keeps r before (lowerBlock l e allowTail) fun _ => l.Gives (patternsLeaves e.patterns) := by
  match e with
  | .result e =>
    exact (lowerExpr_stays e allowTail hl hc ht).mono (fun _ hn => hn) fun _ n hn => .inl (Links.gives_nil.mp hn)
  | .bind p value _ rest =>
    obtain ⟨m, hv, hr⟩ := bodyLinks_bind.mp hl
    have hle := hv.local.1
    have hle' := (BodyLinks.local rest hr).1
    refine .bind (lowerGroup_stays hv (hc.sub (Nat.le_refl _) hle') fun hb hc hp =>
      lowerBlock_keeps value false hb hc hp nofun) fun _ => ?_
    refine .bind (storePattern_keeps p value.value.line fun n hn => hp n (Links.gives_append.mpr (.inl hn))) fun _ => ?_
    refine (lowerBlock_keeps rest allowTail hr (hc.sub hle (Nat.le_refl _))
      (fun n hn => hp n (Links.gives_append.mpr (.inr hn))) ht).mono (fun _ hn => hn) ?_
    exact fun _ n hn => (Links.gives_append.mp hn).symm.imp_right .inr

end

theorem lowerType_stays {path : List String} {name : QName} {isPublic : Bool} {cases : List CaseDecl} :
    Stays r before (lowerType path name isPublic cases) := by
  unfold lowerType
  cases name.parts.getLast? with
  | none => exact .pure fun _ => False.elim
  | some last =>
    simp only
    split
    · exact emit_stays rfl
    · exact .bind (emit_stays rfl) fun _ => emit_stays rfl

mutual

theorem lowerDecls_keeps {publishRoot : Bool} {path : List String} (ds : List Decl) {r : Region} {gs : List Group}
    {a b : Nat} {before : Nat → Prop} (hl : DeclsLinks l ds r.own gs a b) (hc : r.Covers gs a b)
    (hp : ∀ n, l.Gives (patternsLeaves (bindingPatterns ds)) n → r.Owns n) :
    Keeps r before (lowerDecls l publishRoot path ds) fun _ => l.Gives (patternsLeaves (bindingPatterns ds)) := by
  match ds with
  | [] => exact .pure fun n hn => (Links.gives_nil.mp hn).elim
  | d :: ds =>
    simp only [DeclsLinks] at hl
    obtain ⟨m, hd, hds⟩ := hl
    have hle := (DeclLinks.local d hd).1
    have hle' := (DeclsLinks.local ds hds).1
    have hleaves : ∀ n, l.Gives (patternsLeaves (bindingPatterns (d :: ds))) n ↔
        l.Gives (patternsLeaves (bindingPatterns [d])) n ∨ l.Gives (patternsLeaves (bindingPatterns ds)) n := by
      intro n
      cases d <;> simp [bindingPatterns, patternsLeaves]
    refine .bind (lowerDecl_keeps d hd (hc.sub (Nat.le_refl _) hle') fun n hn => hp n ((hleaves n).mpr (.inl hn)))
      fun _ => ?_
    refine (lowerDecls_keeps ds hds (hc.sub hle (Nat.le_refl _)) fun n hn => hp n ((hleaves n).mpr (.inr hn))).mono
      (fun _ hn => hn) ?_
    exact fun _ n hn => ((hleaves n).mp hn).symm.imp_right .inr

theorem lowerDecl_keeps {publishRoot : Bool} {path : List String} (d : Decl) {r : Region} {gs : List Group}
    {a b : Nat} {before : Nat → Prop} (hl : DeclLinks l d r.own gs a b) (hc : r.Covers gs a b)
    (hp : ∀ n, l.Gives (patternsLeaves (bindingPatterns [d])) n → r.Owns n) :
    Keeps r before (lowerDecl l publishRoot path d) fun _ => l.Gives (patternsLeaves (bindingPatterns [d])) := by
  have hnone : ∀ {x : Emitter Unit} {before : Nat → Prop}, Stays r before x →
      Keeps r before x fun _ => l.Gives [] := fun h =>
    h.mono (fun _ hn => hn) fun _ n hn => .inl (Links.gives_nil.mp hn)
  match d with
  | .space ns =>
    simp only [DeclLinks] at hl
    exact hnone (lowerNamespace_stays ns hl hc)
  | .type name isPublic cases none =>
    exact hnone (.bind lowerType_stays fun _ => .pure fun _ => False.elim)
  | .type name isPublic cases (some ns) =>
    simp only [DeclLinks] at hl
    exact hnone (.bind lowerType_stays fun _ => .ite (.pure fun _ => False.elim) (lowerNamespace_stays ns hl hc))
  | .binding p value isPublic =>
    simp only [DeclLinks] at hl
    have hleaves : patternsLeaves (bindingPatterns [.binding p value isPublic]) = p.leaves := List.append_nil _
    rw [hleaves] at hp ⊢
    exact .bind (lowerGroup_stays hl hc fun hb hc hp => lowerBlock_keeps value false hb hc hp nofun) fun _ =>
      storePattern_keeps p value.value.line hp

theorem lowerNamespace_stays {publishRoot : Bool} {path : List String} (ns : NamespaceDecl) {r : Region}
    {gs : List Group} {a b : Nat} {before : Nat → Prop} (hl : NamespaceLinks l ns r.own gs a b)
    (hc : r.Covers gs a b) : Stays r before (lowerNamespace l publishRoot path ns) := by
  match ns with
  | .mk name isPublic decls =>
    simp only [NamespaceLinks] at hl
    obtain ⟨g, m, hd, hf, hds⟩ := hl
    have hle := (DeclsLinks.local decls hds).1
    have hhi := hc.hi
    refine .bind (emit_stays rfl) fun _ => ?_
    have hdecls : Keeps (r.within g) (fun n => before n ∨ False)
        (lowerDecls l publishRoot (path ++ name.parts) decls)
        fun _ => l.Gives (patternsLeaves (bindingPatterns decls)) :=
      lowerDecls_keeps decls hds (hc.enter.sub hd.le (Nat.le_refl _))
        fun n hn => hd.owns hf hc.lo (Nat.le_trans hle hhi) hn
    exact (hdecls.leave fun _ n hn => hd.gives hn).mono (fun _ hn => hn) fun _ _ hn => hn.elim

end

theorem lowerImport_stays (i : Import) : Stays r before (lowerImport i) := by
  have hentries : ∀ (names : List QName) (before : Nat → Prop), Stays r before
      (names.forM fun q => emit i.line (.importEntry i.file q.parts)) := by
    intro names
    induction names with
    | nil => exact fun _ => .pure fun _ => False.elim
    | cons q names ih => exact fun _ => .bind (emit_stays rfl) fun _ => ih _
  exact .ite (emit_stays rfl) (hentries i.names before)

/-- The code of a program keeps to the numbers of its names and its list items. -/
theorem lowerProgram_stays {publishRoot : Bool} (p : Program) {a b : Nat} (hl : ProgramLinks l p r.own a b)
    (hlo : r.lo ≤ a) (hhi : b ≤ r.hi) : Stays r before (lowerProgram l publishRoot p) := by
  have himports : ∀ (is : List Import) (before : Nat → Prop), Stays r before (is.forM lowerImport) := by
    intro is
    induction is with
    | nil => exact fun _ => .pure fun _ => False.elim
    | cons i is ih => exact fun _ => .bind (lowerImport_stays i) fun _ => ih _
  obtain ⟨g, m, m', hd, hf, hds, htrailing⟩ := hl
  have hle := hd.le
  have hle' := (DeclsLinks.local p.root.decls hds).1
  have hle'' : m' ≤ b := by
    cases hc : p.trailing with
    | none =>
      rw [hc] at htrailing
      exact Nat.le_of_eq htrailing
    | some c =>
      rw [hc] at htrailing
      exact (ExprLinks.local c.toExpr htrailing).1
  have hcovers : r.Covers [] a b := ⟨nofun, hlo, hhi⟩
  refine .bind (himports p.imports _) fun _ => ?_
  suffices hrest : Keeps (r.within g) (fun n => before n ∨ False) _
      fun _ => l.Gives (patternsLeaves (bindingPatterns p.root.decls)) from
    (hrest.leave fun _ n hn => hd.gives hn).mono (fun _ hn => hn) fun _ _ => False.elim
  refine .bind (lowerDecls_keeps (r := r.within g) p.root.decls hds (hcovers.enter.sub hle hle'')
    fun n hn => hd.owns hf hlo (show m ≤ r.hi by omega) hn) fun _ => ?_
  cases hc : p.trailing with
  | none => exact .pure fun n hn => .inr hn
  | some c =>
    rw [hc] at htrailing
    exact (lowerExpr_stays (r := r.within g) c.toExpr false htrailing
      (hcovers.enter.sub (show a ≤ m' by omega) (Nat.le_refl _)) nofun).mono (fun _ hn => hn)
      fun _ n hn => .inr (.inr hn)

/-- A compiled program reads only slots that the unit at hand or one around it saves, the functions in a unit leave
its slots alone, and it does not begin again by itself. -/
theorem compile_whole {p : Program} {publishRoot : Bool} {n next : Nat} {c : Code} (hp : p.ids.Nodup)
    (h : p.compile publishRoot n = .ok (c, next)) : c.Whole := by
  obtain ⟨own, hl⟩ := p.link_resolves n hp
  unfold Program.compile at h
  obtain ⟨⟨_, t⟩, hlow, h⟩ := Except.bind_eq_ok h
  obtain ⟨unit, hf, h⟩ := Except.bind_eq_ok h
  cases h
  let r : Region := { reach := fun _ => False, own, lo := n, hi := (p.link n).nextSlot, tail := false }
  have hstays : Stays r (fun _ => False) (lowerProgram (p.link n).links publishRoot p) :=
    lowerProgram_stays p hl (Nat.le_refl _) (Nat.le_refl _)
  have ht : t.Lexical r (p.link n).nextSlot :=
    (hstays _ _ t hlow nofun).2.2 r.reach _ (fun _ hn => hn) (.empty (Nat.le_refl _))
  obtain ⟨hlex, hshield, -, hsteady⟩ := ht.finish hf
  exact ⟨hlex, hshield, hsteady rfl⟩

end

end MatchLang
