import MatchLang.Proofs.Lowering.Emitted

/-! What a program is compiled to: the code of its imports, its declarations and its trailing call,
one after another in a unit of its own. -/

namespace MatchLang

theorem lowerType_writes {path : List String} {name : QName} {isPublic : Bool}
    {cases : List CaseDecl} {s t : Emitting}
    (h : (lowerType path name isPublic cases).run s = .ok ((), t)) :
    s.WritesPlain t fun is k => is = typeCode path name isPublic cases ++ k := by
  unfold lowerType at h
  cases hl : name.parts.getLast? with
  | none =>
    simp only [hl] at h
    cases h
    exact ⟨.refl s, rfl, fun _ => by simp [typeCode, hl]⟩
  | some last =>
    simp only [hl] at h
    by_cases hi : name.parts.dropLast.isEmpty
    · simp only [hi, if_true] at h
      obtain ⟨hg, hn, hw⟩ := emit_writes h
      exact ⟨hg, hn, fun hc => by simp [typeCode, hl, hi, hw hc]⟩
    · simp only [hi] at h
      obtain ⟨_, t₁, h₁, h₂⟩ := Emitter.bind_eq_ok h
      obtain ⟨hg₁, hn₁, hw₁⟩ := emit_writes h₁
      obtain ⟨hg₂, hn₂, hw₂⟩ := emit_writes h₂
      exact ⟨hg₁.trans hg₂, by omega, fun hc => by
        simp [typeCode, hl, hi, hw₁ (hc.of_grows hg₂), hw₂ hc]⟩

mutual

theorem lowerDecls_writes {l : Links} {publishRoot : Bool} :
    (ds : List Decl) → {path : List String} → {s t : Emitting} →
      (lowerDecls l publishRoot path ds).run s = .ok ((), t) →
      s.Writes t (DeclsCode l publishRoot ds path)
  | [], _, s, _, h => by
    cases h
    exact ⟨.refl s, fun _ => ⟨rfl, rfl⟩⟩
  | d :: ds, path, s, t, h => by
    obtain ⟨_, t₁, h₁, h₂⟩ := Emitter.bind_eq_ok h
    obtain ⟨hg₁, hw₁⟩ := lowerDecl_writes d h₁
    obtain ⟨hg₂, hw₂⟩ := lowerDecls_writes ds h₂
    exact ⟨hg₁.trans hg₂, fun hc => ⟨_, _, hw₁ (hc.of_grows hg₂), hw₂ hc⟩⟩

theorem lowerDecl_writes {l : Links} {publishRoot : Bool} :
    (d : Decl) → {path : List String} → {s t : Emitting} →
      (lowerDecl l publishRoot path d).run s = .ok ((), t) →
      s.Writes t (DeclCode l publishRoot d path)
  | .space ns, _, _, _, h => lowerNamespace_writes ns h
  | .type name isPublic cases none, path, s, t, h => by
    obtain ⟨_, t₁, h₁, h₂⟩ := Emitter.bind_eq_ok h
    cases h₂
    obtain ⟨hg₁, hn₁, hw₁⟩ := lowerType_writes h₁
    exact ⟨hg₁, fun hc => ⟨_, hw₁ hc, hn₁, rfl⟩⟩
  | .type name isPublic cases (some ns), path, s, t, h => by
    obtain ⟨_, t₁, h₁, h₂⟩ := Emitter.bind_eq_ok h
    obtain ⟨hg₁, hn₁, hw₁⟩ := lowerType_writes h₁
    by_cases hp : name.parts.isEmpty
    · simp only [hp, if_true] at h₂
      cases h₂
      refine ⟨hg₁, fun hc => ⟨_, hw₁ hc, ?_⟩⟩
      simp only [hp, if_true]
      exact ⟨hn₁, trivial⟩
    · simp only [hp] at h₂
      obtain ⟨hg₂, hw₂⟩ := lowerNamespace_writes ns h₂
      refine ⟨hg₁.trans hg₂, fun hc => ⟨_, hw₁ (hc.of_grows hg₂), ?_⟩⟩
      simpa [hp, hn₁] using hw₂ hc
  | .binding p value isPublic, path, s, t, h => by
    obtain ⟨_, t₁, h₁, h₂⟩ := Emitter.bind_eq_ok h
    obtain ⟨hg₁, hw₁⟩ := lowerBlock_writes value h₁
    obtain ⟨hg₂, hn₂, hw₂⟩ := storePattern_writes p h₂
    refine ⟨hg₁.trans hg₂, fun {c} hc => ⟨t₁.after c, ?_, hw₂ hc⟩⟩
    rw [hn₂]
    exact hw₁ (hc.of_grows hg₂)

theorem lowerNamespace_writes {l : Links} {publishRoot : Bool} :
    (ns : NamespaceDecl) → {path : List String} → {s t : Emitting} →
      (lowerNamespace l publishRoot path ns).run s = .ok ((), t) →
      s.Writes t (NamespaceCode l publishRoot ns path)
  | .mk name isPublic decls, path, s, t, h => by
    obtain ⟨_, t₁, h₁, h₂⟩ := Emitter.bind_eq_ok h
    obtain ⟨hg₁, hn₁, hw₁⟩ := emit_writes h₁
    obtain ⟨hg₂, hw₂⟩ := lowerDecls_writes decls h₂
    refine ⟨hg₁.trans hg₂, fun hc => ⟨_, hw₁ (hc.of_grows hg₂), ?_⟩⟩
    simpa only [hn₁] using hw₂ hc

end

theorem emitEntries_writes {line : Nat} {file : String} : (names : List QName) →
    {s t : Emitting} →
    (names.forM fun n => emit line (.importEntry file n.parts)).run s = .ok ((), t) →
    s.WritesPlain t fun is k =>
      is = (names.map fun n => .mk line (.importEntry file n.parts)) ++ k
  | [], s, _, h => by
    cases h
    exact ⟨.refl s, rfl, fun _ => rfl⟩
  | n :: ns, _, _, h => by
    obtain ⟨_, t₁, h₁, h₂⟩ := Emitter.bind_eq_ok h
    obtain ⟨hg₁, hn₁, hw₁⟩ := emit_writes h₁
    obtain ⟨hg₂, hn₂, hw₂⟩ := emitEntries_writes ns h₂
    refine ⟨hg₁.trans hg₂, by omega, fun hc => ?_⟩
    rw [hw₁ (hc.of_grows hg₂), hw₂ hc]
    rfl

theorem lowerImport_writes {m : Import} {s t : Emitting}
    (h : (lowerImport m).run s = .ok ((), t)) :
    s.WritesPlain t fun is k => is = importCode m ++ k := by
  unfold lowerImport at h
  unfold importCode
  by_cases hm : m.names.isEmpty
  · simp only [hm, if_true] at h ⊢
    exact emit_writes h
  · simp only [hm] at h ⊢
    exact emitEntries_writes m.names h

theorem lowerImports_writes : (ms : List Import) → {s t : Emitting} →
    (ms.forM lowerImport).run s = .ok ((), t) →
    s.WritesPlain t fun is k => is = ms.flatMap importCode ++ k
  | [], s, _, h => by
    cases h
    exact ⟨.refl s, rfl, fun _ => rfl⟩
  | m :: ms, _, _, h => by
    obtain ⟨_, t₁, h₁, h₂⟩ := Emitter.bind_eq_ok h
    obtain ⟨hg₁, hn₁, hw₁⟩ := lowerImport_writes h₁
    obtain ⟨hg₂, hn₂, hw₂⟩ := lowerImports_writes ms h₂
    refine ⟨hg₁.trans hg₂, by omega, fun hc => ?_⟩
    rw [hw₁ (hc.of_grows hg₂), hw₂ hc]
    simp

/-- A compiled program is its own code. The slots of its names come first and those of its list items
after them. -/
theorem compile_eq_ok {p : Program} {publishRoot : Bool} {n next : Nat} {c : Code}
    (h : p.compile publishRoot n = .ok (c, next)) :
    ProgramCode (p.link n).links publishRoot p c (p.link n).nextSlot next := by
  unfold Program.compile at h
  obtain ⟨⟨_, t⟩, hl, h⟩ := Except.bind_eq_ok h
  obtain ⟨unit, hf, h⟩ := Except.bind_eq_ok h
  cases h
  obtain ⟨hu, hi, ha⟩ := finish_eq_ok hf
  obtain ⟨_, t₁, h₁, hl⟩ := Emitter.bind_eq_ok hl
  obtain ⟨_, t₂, h₂, h₃⟩ := Emitter.bind_eq_ok hl
  obtain ⟨hg₁, hn₁, hw₁⟩ := lowerImports_writes p.imports h₁
  obtain ⟨hg₂, hw₂⟩ := lowerDecls_writes p.root.decls h₂
  have hs : Emitting.after ⟨.empty, (p.link n).nextSlot⟩ c = c.instrs := rfl
  cases ht : p.trailing with
  | none =>
    rw [ht] at h₃
    cases h₃
    refine ⟨t.nextSlot, t₁.after c, t.after c, ?_, ?_, ?_⟩
    · rw [← hs, hw₁ (hu.of_grows hg₂)]
    · simpa only [hn₁] using hw₂ hu
    · simp only [ht]
      exact ⟨trivial, ha⟩
  | some call =>
    rw [ht] at h₃
    obtain ⟨hg₃, hw₃⟩ := lowerExpr_writes call.toExpr h₃
    refine ⟨t₂.nextSlot, t₁.after c, t₂.after c, ?_, ?_, ?_⟩
    · rw [← hs, hw₁ (hu.of_grows (hg₂.trans hg₃))]
    · simpa only [hn₁] using hw₂ (hu.of_grows hg₃)
    · simp only [ht]
      simpa only [ha] using hw₃ hu

end MatchLang
