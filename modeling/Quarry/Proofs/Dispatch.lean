import Quarry.Dispatch
import Quarry.Proofs.Filter

/-! The three ways in which a search begins: it names symbols, asks all sources, or asks one. -/

namespace Quarry.Dispatch

/-- Whether no symbols answer a search in a mode, so that it has to ask the sources. -/
def Ranks (globs : GlobReader) (c : Catalog) (mode : Mode) (call : Call) : Prop :=
  mode ≠ .symbol ∧ (mode = .auto → ∀ d ds, exactSymbols globs c call ≠ .ok (d :: ds))

/-- Symbols can be looked for if the glob of the filter is taken. -/
theorem exactSymbols_eq_ok {globs : GlobReader} (c : Catalog) {call : Call}
    (accepted : call.filter.Accepted globs) :
    ∃ symbols, exactSymbols globs c call = .ok symbols := by
  rw [exactSymbols, accepted.check]
  exact ⟨_, rfl⟩

theorem start_cases (h : Hybrid) (c : Catalog) (settings : Settings) (now : Float) (mode : Mode)
    (call : Call) :
    (start h c settings now mode call =
        ((.decided ((exactSymbols h.globs c call).map fun symbols =>
          .symbols mode call.query (limited call symbols)), []), h) ∧
      (Ranks h.globs c mode call → ∃ f, exactSymbols h.globs c call = .error f)) ∨
    start h c settings now mode call = startHybrid h c settings now mode call ∨
    ∃ wanted, start h c settings now mode call = startSource h c settings mode wanted call := by
  cases mode with
  | auto =>
    rw [start]
    cases hsymbols : exactSymbols h.globs c call with
    | error f => exact .inl ⟨rfl, fun _ => ⟨f, rfl⟩⟩
    | ok symbols =>
      cases symbols with
      | nil => exact .inr (.inl rfl)
      | cons d ds => exact .inl ⟨rfl, fun ranks => absurd hsymbols (ranks.2 rfl d ds)⟩
  | symbol => exact .inl ⟨rfl, fun ranks => absurd rfl ranks.1⟩
  | hybrid => exact .inr (.inl rfl)
  | fulltext | bm25 => exact .inr (.inr ⟨.bm25, rfl⟩)
  | semantic => exact .inr (.inr ⟨.semantic, rfl⟩)
  | fuzzy => exact .inr (.inr ⟨.fuzzy, rfl⟩)

end Quarry.Dispatch
