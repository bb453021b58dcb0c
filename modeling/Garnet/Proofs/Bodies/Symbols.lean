import Garnet.Proofs.Control.Kept
import Garnet.Proofs.Lookup.Tables

/-!
# Symbols

A symbol is made once for each name and never changes, so that what is found under a name is the
symbol of that name: at every point of a session.
-/

namespace Garnet

theorem Edited.symbol {s t : Store} {v : Value} {name : String} (h : Edited s t)
    (hv : s.payload v = .symbol name) : t.payload v = .symbol name :=
  h.payload_eq trivial hv

/-- Every symbol is found under its name. -/
def Store.SymbolsFit (s : Store) : Prop :=
  ∀ name v, s.symbols[name]? = some v → s.payload v = .symbol name

namespace Store.SymbolsFit

variable {s t u : Store}

theorem of_same (h : u.SymbolsFit) (hobjects : t.objects = u.objects)
    (hsymbols : t.symbols = u.symbols) : t.SymbolsFit := by
  intro name v hv
  rw [payload, object, hobjects]
  exact h name v (hsymbols ▸ hv)

/-- No name gets another symbol. -/
theorem of_symbols (h : u.SymbolsFit) (he : Edited u t) (hsymbols : t.symbols = u.symbols) :
    t.SymbolsFit :=
  fun name v hv => he.symbol (h name v (hsymbols ▸ hv))

theorem alloc (h : u.SymbolsFit) (o : Object) : (u.alloc o).2.SymbolsFit := by
  intro name v hv
  have hp : u.payload v = .symbol name := h name v hv
  exact (congrArg Object.payload (object_alloc_of_lt u o (index_lt_of_payload u hp nofun))).trans hp

theorem intern (h : u.SymbolsFit) (name : String) : (u.intern name).SymbolsFit := by
  intro n v hv
  simp only [Store.intern, Std.TreeMap.getElem?_insert, Std.LawfulEqCmp.compare_eq_iff_eq] at hv
  split at hv
  · rename_i hn
    cases hv
    rw [← hn]
    exact congrArg Object.payload (object_alloc u _)
  · exact h.alloc { cls := CoreClass.symbol.value, payload := .symbol name } n v hv

theorem of_edited (hu : u.SymbolsFit) (h : Edited u t) : t.SymbolsFit := by
  induction h with
  | refl => exact hu
  | alloc _ o _ ih => exact ih.alloc o
  | integer _ i _ ih => exact ih.alloc _
  | intern _ name _ ih => exact ih.intern name
  | modify _ v f hf ih => exact ih.of_symbols (.modify .refl v f hf) rfl
  | around _ _ _ _ hobjects hsymbols _ ih => exact ih.of_same hobjects hsymbols

theorem kept : Kept fun s t => s.SymbolsFit → t.SymbolsFit where
  refl _ := id
  trans h h' := h' ∘ h
  change c _ hc h := h.of_edited (.change c hc)
  exception _ _ _ h := h.of_edited (.newException _ _)
  activate _ h := h.of_same rfl rfl
  within {s t st scope} h hs := by
    have hin : (s.enter st scope).SymbolsFit := hs.of_same rfl rfl
    exact (h hin).of_same rfl rfl
  deeper {s t} h hs := by
    have hin : Store.SymbolsFit { s with depth := s.depth + 1 } := hs.of_same rfl rfl
    exact (h hin).of_same rfl rfl
  handling {s t exc} h hs := by
    have hin : (s.setErrorInfo exc).SymbolsFit := hs.of_same rfl rfl
    exact (h hin).of_same rfl rfl

/-- More objects, which are no symbols yet. -/
theorem append (h : u.SymbolsFit) (objects : Array Object) (ho : t.objects = u.objects ++ objects)
    (hsymbols : t.symbols = u.symbols) : t.SymbolsFit := by
  intro name v hv
  have hp : u.payload v = .symbol name := h name v (hsymbols ▸ hv)
  have hlt := index_lt_of_payload u hp nofun
  rw [payload, object_append u ho hlt]
  exact hp

theorem base : Store.base.SymbolsFit := by
  refine of_edited (fun name v hv => ?_) .base
  exact absurd hv (by simp [bare])

theorem start (config : Config) (input : List String) : (Store.start config input).SymbolsFit := by
  have hinterned (s : Store) (hs : s.SymbolsFit) :
      Store.SymbolsFit { s with config, input, objects := s.objects ++ internedIntegers config } :=
    hs.append _ rfl rfl
  exact (hinterned _ base).of_edited .defineFloats

end Store.SymbolsFit

/-- The symbol that is found under the name, or else a new one. -/
theorem Eval.newSymbol_ok {e : Engine} {s : Store} (hs : s.SymbolsFit) (name : String) :
    ∃ v t, (Eval.newSymbol name).run e s = .ok v t ∧ (t = s ∨ t = s.intern name) ∧ Edited s t ∧
      t.payload v = .symbol name := by
  cases hv : s.symbols[name]? with
  | some v =>
    refine ⟨v, s, ?_, .inl rfl, .refl, hs name v hv⟩
    simp only [Eval.newSymbol, Eval.view, bind, pure, Act.run, hv]
  | none =>
    refine ⟨⟨s.objects.size⟩, s.intern name, ?_, .inr rfl, .intern .refl name hv,
      congrArg Object.payload (Store.object_alloc s _)⟩
    simp only [Eval.newSymbol, Eval.view, Eval.make, bind, Act.run, Change.apply, hv]

/-! ## Sessions -/

theorem Reachable.symbolsFit {s : Store} (h : Reachable s) : s.SymbolsFit := by
  obtain ⟨config, input, h⟩ := h
  induction h with
  | refl => exact .start config input
  | program _ _ ih => exact Store.SymbolsFit.kept.runProgram _ _ ih
  | operation _ x ih => exact Store.SymbolsFit.kept.evaluate _ _ ih
  | takeOutput _ ih => exact ih.of_same rfl rfl

namespace Point

variable {p q : Point} {m : Mark} {π : Trail}

theorem Enters.symbolsFit (he : Enters p m q) (hp : p.store.SymbolsFit) : q.store.SymbolsFit := by
  cases he with
  | second hx => exact Store.SymbolsFit.kept.outcome_ok hx hp
  | @cleanup n _ _ s x => exact Store.SymbolsFit.kept.outcome ⟨n, x, s⟩ hp
  | _ => exact hp.of_same rfl rfl

theorem Running.symbolsFit (h : Running p π q) (hp : p.store.SymbolsFit) : q.store.SymbolsFit := by
  induction h with
  | start => exact hp
  | step _ he ih => exact he.symbolsFit ih

end Point

end Garnet
