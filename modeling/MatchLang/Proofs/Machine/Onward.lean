import MatchLang.Proofs.Machine.Application
import MatchLang.Proofs.Machine.Passes
import MatchLang.Proofs.Namespace.Making

/-! What one instruction of balanced code comes to. The operands of the stretch of code stand in front
of operands that are not its own; those stay as they are. -/

namespace MatchLang

/-- What goes on in the store while code runs in a scope: scopes and roots are added, namespaces stay,
and of the slots there are only those change that the code may save to. -/
structure Store.Onto (scope : Nat) (saves : Nat → Prop) (σ τ : Store) : Prop where
  scopes : σ.scopes.size ≤ τ.scopes.size
  roots : σ.roots.size ≤ τ.roots.size
  slots : ∀ t n, t < σ.scopes.size → (t = scope → ¬ saves n) → τ.slot? t n = σ.slot? t n
  paths : ∀ r, (σ.root r).Extends (τ.root r)

namespace Store.Onto

variable {scope : Nat} {saves saves' : Nat → Prop} {σ τ υ : Store}

theorem refl (σ : Store) : σ.Onto scope saves σ :=
  ⟨Nat.le_refl _, Nat.le_refl _, fun _ _ _ _ => rfl, fun _ => .refl _⟩

theorem trans (h : Onto scope saves σ τ) (h' : Onto scope saves τ υ) : Onto scope saves σ υ where
  scopes := Nat.le_trans h.scopes h'.scopes
  roots := Nat.le_trans h.roots h'.roots
  slots t n ht hn :=
    (h'.slots t n (Nat.lt_of_lt_of_le ht h.scopes) hn).trans (h.slots t n ht hn)
  paths r := (h.paths r).trans (h'.paths r)

theorem mono (h : Onto scope saves σ τ) (hs : ∀ n, saves n → saves' n) :
    Onto scope saves' σ τ :=
  ⟨h.scopes, h.roots, fun t n ht hn => h.slots t n ht fun he hs' => hn he (hs n hs'), h.paths⟩

/-- Scopes and roots are all that counts. -/
theorem of_eq (hs : τ.scopes = σ.scopes) (hr : τ.roots = σ.roots) : Onto scope saves σ τ where
  scopes := Nat.le_of_eq (congrArg Array.size hs.symm)
  roots := Nat.le_of_eq (congrArg Array.size hr.symm)
  slots t n _ _ := by rw [slot?, hs, ← slot?]
  paths r := by
    have he : τ.root r = σ.root r := by rw [root, hr, ← root]
    rw [he]
    exact .refl _

theorem save {slot : Nat} {v : Value} (h : saves slot) : Onto scope saves σ (σ.save scope slot v) where
  scopes := Nat.le_of_eq size_save.symm
  roots := Nat.le_refl _
  slots t n _ hn := by
    rw [slot?_save, if_neg]
    rintro ⟨rfl, rfl, _⟩
    exact hn rfl h
  paths _ := .refl _

theorem newScope {parent : Option Nat} : Onto scope saves σ (σ.newScope parent).2 where
  scopes := by
    rw [size_newScope]
    exact Nat.le_succ _
  roots := Nat.le_refl _
  slots _ _ _ _ := slot?_newScope
  paths _ := .refl _

theorem setRoot {r : Nat} {ns : Namespace} (h : (σ.root r).Extends ns) :
    Onto scope saves σ (σ.setRoot r ns) where
  scopes := Nat.le_refl _
  roots := Nat.le_of_eq size_setRoot.symm
  slots _ _ _ _ := rfl
  paths i := by
    rw [root_setRoot]
    split
    · rename_i hi
      exact hi.1 ▸ h
    · exact .refl _

end Store.Onto

/-- The namespaces that are known to be there. -/
def Store.Knows (σ : Store) (r : Nat) (ps : List (List String)) : Prop :=
  ∀ p ∈ ps, ((σ.root r).at? p).isSome

theorem Store.Knows.onto {scope : Nat} {saves : Nat → Prop} {σ τ : Store} {r : Nat}
    {ps : List (List String)} (h : σ.Knows r ps) (hσ : σ.Onto scope saves τ) : τ.Knows r ps :=
  fun p hp => (hσ.paths r).isSome (h p hp)

/-- The running function begun again in a new scope. -/
def Machine.restarted (m : Machine) : Machine :=
  { m with store := (m.store.newScope (some m.frame.closure.scope)).2 }.updateFrame fun f =>
    { f with scope := m.store.scopes.size, rest := m.frame.closure.code.instrs }

/-- What balanced code comes to at an instruction, begun by the machine `m` with the store `σ`. -/
inductive Onward (κ : Registry) (host : Host) (s : Stretch) (ps : List (List String)) (m : Machine)
    (σ : Store) (below : List Value) : Transition → Prop where
  | stays {κ' τ own line is qs} : (∀ c, κ.Has c → κ'.Has c) → τ.Sound κ' →
    SoundAll κ' Closure.Balanced own → Balanced s own.length qs is →
    σ.Onto m.frame.scope s.saves τ → (ps = [] → qs = [] ∧ κ' = κ ∧ τ.roots = σ.roots) →
    τ.Knows m.task.root qs →
    Onward κ host s ps m σ below (.running (m.resume τ (own ++ below) line is))
  | restarts {args line k} : s.restarts = true → args.length = m.frame.closure.arity →
    SoundAll κ Closure.Balanced args →
    Onward κ host s ps m σ below (.running (m.resume σ (args ++ below) line k).restarted)
  | enters {c args own line k} : c.Balanced → args.length = c.arity →
    SoundAll κ Closure.Balanced args → SoundAll κ Closure.Balanced own →
    Balanced s (own.length + 1) ps k →
    Onward κ host s ps m σ below
      (.running ((m.resume σ (args ++ (own ++ below)) line k).pushFrame c))
  | loads {own line k file delivery} : [] ∈ ps → SoundAll κ Closure.Balanced own →
    Balanced s own.length ps k →
    Onward κ host s ps m σ below ((m.resume σ (own ++ below) line k).load host file delivery)
  | raises {m' f} : m'.store.Sound κ → σ.Onto m.frame.scope s.saves m'.store → ¬ f.Internal →
    Onward κ host s ps m σ below (.raised m' f)

section

variable {κ : Registry} {host : Host} {s : Stretch} {ps : List (List String)} {m : Machine}
  {σ τ : Store} {own args below : List Value} {line : Nat} {k : List Instr}

/-- The store is as before. -/
theorem Onward.same (hσ : σ.Sound κ) (ho : SoundAll κ Closure.Balanced own)
    (hb : Balanced s own.length ps k) (hk : σ.Knows m.task.root ps) :
    Onward κ host s ps m σ below (.running (m.resume σ (own ++ below) line k)) :=
  .stays (fun _ h => h) hσ ho hb (.refl σ) (fun h => ⟨h, rfl, rfl⟩) hk

theorem Onward.fault {f : Fault} (hσ : σ.Sound κ) (hf : ¬ f.Internal) :
    Onward κ host s ps m σ below (.raised (m.resume σ own line k) f) :=
  .raises hσ (.refl σ) hf

/-- A call of a callee with its arguments in front of the other operands. -/
theorem call_onward {callee : Value} (hσ : σ.Sound κ) (hc : callee.Ok κ)
    (ha : SoundAll κ Closure.Balanced args) (ho : SoundAll κ Closure.Balanced own)
    (hb : Balanced s (own.length + 1) ps k) (hk : σ.Knows m.task.root ps) :
    Onward κ host s ps m σ below
      ((m.resume σ (callee :: (args ++ (own ++ below))) line k).perform host
        (.call args.length)) := by
  have hcall : Called κ m σ (own ++ below) line k
      ((m.resume σ (callee :: (args ++ (own ++ below))) line k).perform host
        (.call args.length)) := call_called hσ hc ha
  generalize (m.resume σ (callee :: (args ++ (own ++ below))) line k).perform host
    (.call args.length) = t at hcall
  cases hcall with
  | @answers τ v hτ hs hr hv =>
    have ho' : SoundAll κ Closure.Balanced (v :: own) := ⟨hv, ho⟩
    have hon : σ.Onto m.frame.scope s.saves τ := .of_eq hs hr
    exact .stays (fun _ h => h) hτ ho' hb hon (fun h => ⟨h, rfl, hr⟩) (hk.onto hon)
  | enters hc hl hs => exact .enters hc hl hs ho hb
  | raises hf => exact .fault hσ hf

end

mutual

/-- A test fails only where a type is not found. -/
theorem accepts_eq_error {find : List String → Except Fault DataType} {f : Fault} :
    (shape : Shape) → {v : Value} → shape.accepts find v = .error f → ∃ path, find path = .error f
  | .any, _, h | .number _, _, h | .text _, _, h | .emptyList, _, h | .unit, _, h => by
    simp [Shape.accepts] at h
  | .type path inners, v, h => by
    rw [Shape.accepts] at h
    split at h
    · rename_i g hg
      cases h
      exact ⟨path, hg⟩
    · split at h
      · cases h
      · split at h
        · exact acceptsAll_eq_error inners h
        · cases h
      · cases h
    · split at h
      · rename_i inner
        split at h
        · exact accepts_eq_error inner h
        · cases h
      · cases h

theorem acceptsAll_eq_error {find : List String → Except Fault DataType} {f : Fault} :
    (shapes : List Shape) → {vs : List Value} → acceptsAll find shapes vs = .error f →
      ∃ path, find path = .error f
  | [], _, h => by simp [acceptsAll] at h
  | _ :: _, [], h => by simp [acceptsAll] at h
  | shape :: shapes, v :: vs, h => by
    rw [acceptsAll] at h
    split at h
    · exact acceptsAll_eq_error shapes h
    · cases h
    · rename_i g hg
      cases h
      exact accepts_eq_error shape hg

end

section

variable {ns : Namespace} {path : List String} {f : Fault}

theorem findType_fault (h : ns.findType path = .error f) : ¬ f.Internal := by
  unfold Namespace.findType at h
  split at h
  · cases h
  · cases h
    exact id

theorem findValue_fault (h : ns.findValue path = .error f) : ¬ f.Internal := by
  unfold Namespace.findValue at h
  split at h
  · cases h
  · cases h
    exact id

theorem accepts_fault {shape : Shape} {v : Value} (h : shape.accepts ns.findType v = .error f) :
    ¬ f.Internal := by
  obtain ⟨path, hp⟩ := accepts_eq_error shape h
  exact findType_fault hp

theorem takeApart_fault {n : Nat} {v : Value} (h : takeApart ns.findType path n v = .error f) :
    ¬ f.Internal := by
  unfold takeApart at h
  split at h
  · rename_i t _
    by_cases hc : ∃ c, t = .case c
    · obtain ⟨c, rfl⟩ := hc
      unfold decompose at h
      split at h
      · simp only at h
        split at h
        · cases h
          exact id
        · split at h <;> (try split at h) <;> cases h <;> exact id
      · rename_i hn
        exact absurd rfl (hn c)
    · rw [decompose_whole (not_exists.mp hc)] at h
      split at h
      · cases h
        exact id
      · split at h <;> cases h
        exact id
  · rename_i hf
    cases h
    exact findType_fault hf

theorem make_fault {isPublic : Bool} (h : ns.make path isPublic = .error f) : ¬ f.Internal := by
  unfold Namespace.make at h
  split at h <;> cases h
  exact id

end

section

variable {κ : Registry} {host : Host} {s : Stretch} {ps : List (List String)} {m : Machine}
  {σ : Store} {own below : List Value} {line : Nat} {k : List Instr}

/-- A jump leads to code that is balanced as well. -/
theorem jump_onward {label : Nat} {target : List Instr} (hσ : σ.Sound κ)
    (ho : SoundAll κ Closure.Balanced own) (hk : σ.Knows m.task.root ps)
    (hu : s.unit = m.frame.closure.code) (hl : s.unit.from? label = some target)
    (hb : Balanced s own.length ps target) :
    Onward κ host s ps m σ below ((m.resume σ (own ++ below) line k).jump label) := by
  rw [hu] at hl
  simp only [Machine.jump, Machine.resume_closure, hl]
  exact .same hσ ho hb hk

/-- One more value is put on the stack. -/
theorem load_onward {v : Value} (hv : v.Ok κ) (hσ : σ.Sound κ) (ho : SoundAll κ Closure.Balanced own)
    (hb : Balanced s (own.length + 1) ps k) (hk : σ.Knows m.task.root ps) :
    Onward κ host s ps m σ below (.running (m.resume σ (v :: own ++ below) line k)) :=
  have hs : SoundAll κ Closure.Balanced (v :: own) := ⟨hv, ho⟩
  .same hσ hs hb hk

/-- The root of the running module is changed, but no namespace goes. -/
theorem declare_onward {κ' : Registry} {τ : Store} {ns : Namespace} {qs : List (List String)}
    (hκ : ∀ c, κ.Has c → κ'.Has c) (hτ : τ.Sound κ') (hn : ns.Sound κ' Closure.Balanced)
    (hστ : σ.Onto m.frame.scope s.saves τ) (he : (τ.root m.task.root).Extends ns)
    (ho : SoundAll κ Closure.Balanced own) (hb : Balanced s own.length qs k) (hps : ps ≠ [])
    (hq : (τ.setRoot m.task.root ns).Knows m.task.root qs) :
    Onward κ host s ps m σ below
      (.running (m.resume (τ.setRoot m.task.root ns) (own ++ below) line k)) :=
  .stays hκ (hτ.setRoot hn) (ho.mono hκ fun _ h => h) hb (hστ.trans (.setRoot he))
    (fun h => absurd h hps) hq

theorem Store.Knows.setRoot {r : Nat} {ns : Namespace} (hk : σ.Knows r ps)
    (he : (σ.root r).Extends ns) : (σ.setRoot r ns).Knows r ps :=
  hk.onto (Store.Onto.setRoot he : σ.Onto 0 (fun _ => True) _)

/-- Balanced code takes one instruction and stays balanced, calls a function with as many operands as
it wants, or meets a fault of the program. -/
theorem Balanced.onward {op : Op} {n : Nat} (hb : Balanced s n ps (.mk line op :: k))
    (hl : own.length = n) (hd : ¬ (n = s.height ∧ .mk line op :: k = s.rest)) (hσ : σ.Sound κ)
    (ho : SoundAll κ Closure.Balanced own) (hu : s.unit = m.frame.closure.code)
    (hk : σ.Knows m.task.root ps) (hr : m.task.root < σ.roots.size) :
    Onward κ host s ps m σ below
      ((m.resume σ (own ++ below) line k).perform host op) := by
  cases hb with
  | done hh hi => exact absurd ⟨hh, hi⟩ hd
  | nothing hb => exact .same hσ ho (hl ▸ hb) hk
  | fail _ => exact .fault hσ id
  | pop hb =>
    obtain ⟨v, own, rfl⟩ := List.exists_cons_of_length_eq_add_one hl
    have hl : own.length = _ := Nat.succ.inj hl
    exact .same hσ ho.2 (hl ▸ hb) hk
  | duplicate hb =>
    obtain ⟨v, own, rfl⟩ := List.exists_cons_of_length_eq_add_one hl
    have hs : SoundAll κ Closure.Balanced (v :: v :: own) := ⟨ho.1, ho⟩
    have hl : (v :: v :: own).length = _ := congrArg (· + 1) hl
    exact .same hσ hs (hl ▸ hb) hk
  | decompose hb =>
    rename_i h path parts
    obtain ⟨v, own, rfl⟩ := List.exists_cons_of_length_eq_add_one hl
    have hl : own.length = _ := Nat.succ.inj hl
    cases ha : takeApart (σ.root m.frame.closure.home).findType path parts v with
    | error f =>
      rw [List.cons_append, perform_decompose_error ha]
      exact .fault hσ (takeApart_fault ha)
    | ok vs =>
      rw [List.cons_append, perform_decompose_ok ha]
      obtain ⟨hn, hs⟩ := takeApart_eq_ok (hσ.roots _).findType ho.1 ha
      have hlen : (vs ++ own).length = h + parts := by
        rw [List.length_append]
        omega
      simp only [← List.append_assoc]
      exact .same hσ (soundAll_append.mpr ⟨hs, ho.2⟩) (hlen ▸ hb) hk
  | jump ht hb _ => exact jump_onward hσ ho hk hu ht (hl ▸ hb)
  | require hb =>
    rename_i shape
    obtain ⟨v, own, rfl⟩ := List.exists_cons_of_length_eq_add_one hl
    have hl : own.length = _ := Nat.succ.inj hl
    rw [List.cons_append]
    rcases ha : shape.accepts (σ.root m.frame.closure.home).findType v with f | fits
    · rw [perform_require_error ha]
      exact .fault hσ (accepts_fault ha)
    · rw [perform_require_ok ha]
      cases fits with
      | true => exact .same hσ ho.2 (hl ▸ hb) hk
      | false => exact .fault hσ id
  | jumpIf ht hbt hb =>
    rename_i shape label target
    obtain ⟨v, own, rfl⟩ := List.exists_cons_of_length_eq_add_one hl
    have hl : own.length = _ := Nat.succ.inj hl
    rw [List.cons_append]
    rcases ha : shape.accepts (σ.root m.frame.closure.home).findType v with f | fits
    · rw [perform_jumpIf_error ha]
      exact .fault hσ (accepts_fault ha)
    · rw [perform_jumpIf_ok ha]
      cases fits with
      | true => exact jump_onward hσ ho.2 hk hu ht (hl ▸ hbt)
      | false => exact .same hσ ho.2 (hl ▸ hb) hk
  | loadLocal hb =>
    rename_i slot
    cases hv : σ.lookup m.frame.scope slot.id with
    | none =>
      rw [perform_loadLocal_none hv]
      exact .fault hσ id
    | some v =>
      rw [perform_loadLocal_some hv]
      exact load_onward (hσ.lookup hv) hσ ho (hl ▸ hb) hk
  | loadName hb =>
    rename_i path
    cases hv : (σ.root m.frame.closure.home).findValue path with
    | error f =>
      rw [perform_loadName_error hv]
      exact .fault hσ (findValue_fault hv)
    | ok v =>
      rw [perform_loadName_ok hv]
      exact load_onward ((hσ.roots _).findValue hv) hσ ho (hl ▸ hb) hk
  | loadNumber hb =>
    rename_i x
    have hv : (Value.number x).Ok κ := trivial
    exact load_onward hv hσ ho (hl ▸ hb) hk
  | loadText hb =>
    rename_i text
    have hv : (Value.text text).Ok κ := trivial
    exact load_onward hv hσ ho (hl ▸ hb) hk
  | loadFunction hc hb =>
    rename_i code arity
    have hs : SoundAll κ Closure.Balanced (.function
        ((m.resume σ (own ++ below) line k).frame.closeOver σ.nextIdentity code arity) :: own) :=
      ⟨hc, ho⟩
    have hn : (Value.function ((m.resume σ (own ++ below) line k).frame.closeOver
        σ.nextIdentity code arity) :: own).length = n + 1 := congrArg (· + 1) hl
    exact .stays (fun _ h => h) hσ.newIdentity hs (hn ▸ hb) (.of_eq rfl rfl)
      (fun h => ⟨h, rfl, rfl⟩) hk
  | saveLocal hw hb =>
    obtain ⟨v, own, rfl⟩ := List.exists_cons_of_length_eq_add_one hl
    have hl : own.length = _ := Nat.succ.inj hl
    exact .stays (fun _ h => h) (hσ.save ho.1) ho.2 (hl ▸ hb) (.save hw) (fun h => ⟨h, rfl, rfl⟩) hk
  | publish hp hb =>
    rename_i h name path
    obtain ⟨v, own, rfl⟩ := List.exists_cons_of_length_eq_add_one hl
    have hl : own.length = _ := Nat.succ.inj hl
    have hn : Machine.publishIn (σ.root m.task.root) path name v = .ok
        ((σ.root m.task.root).updateAt (·.setValue name v) path) :=
      publishIn_eq_ok.mpr ⟨hk path hp, rfl⟩
    rw [List.cons_append, perform_publish_ok hn]
    have he : (σ.root m.task.root).Extends
        ((σ.root m.task.root).updateAt (·.setValue name v) path) :=
      .updateAt fun _ => .of_children rfl fun _ => rfl
    have hs : ((σ.root m.task.root).updateAt (·.setValue name v) path).Sound κ
        Closure.Balanced := (hσ.roots m.task.root).updateAt fun _ h => h.setValue ho.1
    exact declare_onward (fun _ h => h) hσ hs (.refl σ) he ho.2 (hl ▸ hb)
      (List.ne_nil_of_mem hp) (hk.setRoot he)
  | call hb =>
    rename_i h argc
    obtain ⟨callee, rest, rfl⟩ := List.exists_cons_of_length_eq_add_one hl
    have hrest : rest.length = h + argc := Nat.succ.inj hl
    have ht : (rest.take argc).length = argc := by
      rw [List.length_take]
      omega
    have hdl : (rest.drop argc).length = h := by
      rw [List.length_drop]
      omega
    have hs := ho.2
    rw [← List.take_append_drop argc rest] at hs ⊢
    obtain ⟨hsa, hso⟩ := soundAll_append.mp hs
    have hc : Onward κ host s ps m σ below
        ((m.resume σ (callee :: (rest.take argc ++ (rest.drop argc ++ below))) line k).perform
          host (.call (rest.take argc).length)) :=
      call_onward hσ ho.1 hsa hso (hdl.symm ▸ hb) hk
    rw [ht] at hc
    rw [List.cons_append, List.append_assoc]
    exact hc
  | tailCall hr _ _ =>
    have hp : (m.resume σ (own ++ below) line k).perform host (.tailCall n) =
        if m.frame.closure.arity = n then
          .running (m.resume σ (own ++ below) line k).restarted
        else .raised (m.resume σ (own ++ below) line k) .partialTailCall := rfl
    rw [hp]
    split
    · rename_i ha
      exact .restarts hr (hl.trans ha.symm) ho
    · exact .fault hσ id
  | makeNamespace hp hb =>
    rename_i path isPublic
    rw [Machine.perform, Machine.makeNamespace_eq]
    cases hn : (σ.root m.task.root).make path isPublic with
    | error f =>
      rw [declare_eq_error hn]
      exact .fault hσ (make_fault hn)
    | ok ns =>
      rw [declare_eq_ok hn]
      obtain ⟨he, hpath⟩ := Namespace.make_eq_ok hn
      have hq : (σ.setRoot m.task.root ns).Knows m.task.root (path :: ps) := by
        intro p hpp
        rcases List.mem_cons.mp hpp with rfl | hpp
        · rw [Store.root_setRoot, if_pos ⟨rfl, hr⟩]
          exact hpath
        · exact hk.setRoot he p hpp
      exact declare_onward (fun _ h => h) hσ ((hσ.roots _).make hn) (.refl σ) he ho (hl ▸ hb)
        (List.ne_nil_of_mem hp) hq
  | makeType hp hb =>
    rename_i name path cases
    obtain ⟨c, hc⟩ := Option.isSome_iff_exists.mp (hk path hp)
    have hn : Machine.defineIn (σ.root m.task.root) path name
        (numberCases σ.nextIdentity cases) = .ok ((σ.root m.task.root).updateAt
          (·.addFamily name (numberCases σ.nextIdentity cases)) path) := by
      rw [Machine.defineIn, Namespace.find_eq_ok.mpr hc]
      rfl
    have hm : (m.resume σ (own ++ below) line k).perform host (.makeType name path cases) =
        .running (m.resume (Store.setRoot { σ with nextIdentity := σ.nextIdentity + cases.length }
          m.task.root ((σ.root m.task.root).updateAt
            (·.addFamily name (numberCases σ.nextIdentity cases)) path)) (own ++ below) line k) := by
      show (m.resume { σ with nextIdentity := σ.nextIdentity + cases.length } (own ++ below) line
        k).declare (Machine.defineIn · path name (numberCases σ.nextIdentity cases)) = _
      exact declare_eq_ok hn
    rw [hm]
    have hκ : ∀ c, κ.Has c → (κ.enter σ.nextIdentity cases).Has c :=
      fun _ => Registry.enter_has hσ.fresh
    have hf : ((σ.root m.task.root).updateAt
        (·.addFamily name (numberCases σ.nextIdentity cases)) path).Sound
          (κ.enter σ.nextIdentity cases) Closure.Balanced :=
      ((hσ.roots m.task.root).mono hκ fun _ h => h).updateAt fun _ h =>
        h.addFamily fun _ => Registry.enter_new
    have he : (σ.root m.task.root).Extends ((σ.root m.task.root).updateAt
        (·.addFamily name (numberCases σ.nextIdentity cases)) path) :=
      .updateAt fun _ => Namespace.extends_addFamily
    exact declare_onward hκ hσ.enter hf (.of_eq rfl rfl) he ho (hl ▸ hb) (List.ne_nil_of_mem hp)
      (hk.setRoot he)
  | importAll hp hb => exact .loads hp ho (hl ▸ hb)
  | importEntry hp hb => exact .loads hp ho (hl ▸ hb)

end

end MatchLang
