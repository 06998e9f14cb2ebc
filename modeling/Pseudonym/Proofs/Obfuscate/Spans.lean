/-
# Other spans

A schema with all its spans changed by one function. What is declared, what is
written and what an obfuscation makes of it do not depend on spans; faults
depend on the lines alone. `Schema.onLines k` forgets the offsets of a schema
and moves its lines down by `k`, so two schemas are equal up to offsets exactly
if they are equal on lines.
-/
import Pseudonym.Proofs.Obfuscate.Plain

namespace Pseudonym

/-- Two changes in a row are a third that does the same to every declaration. -/
theorem Retouch.Leads.retouch {R R' R'' : Retouch} (h : R.Leads R' R'') (s : Schema) :
    (s.retouch R).retouch R' = s.retouch R'' := by
  rw [Schema.retouch, Schema.retouch, Schema.retouch, List.map_map]
  exact congrArg Schema.mk (List.map_congr_left fun d _ => h.onDeclaration d)

namespace Span

/-- The line of a span, moved down by `k`, and nothing else. -/
def onLine (k : Nat) (x : Span) : Span := ⟨0, 0, x.line + k⟩

end Span

namespace Schema

/-- The schema with lines only, all of them moved down by `k`. -/
def onLines (k : Nat) (s : Schema) : Schema := s.retouch (.mapSpan (Span.onLine k))

variable {s s' : Schema} {k : Nat}

/-- Spans that are forgotten may have been any before. -/
theorem unplaced_retouch_mapSpan (f : Span → Span) (s : Schema) :
    (s.retouch (.mapSpan f)).unplaced = s.unplaced := by
  rw [← retouch_unplaced, ← retouch_unplaced]
  exact Retouch.Leads.retouch ⟨fun _ => rfl, Value.mapSpan_mapSpan f _, fun _ => rfl, fun _ => rfl⟩ s

theorem unplaced_onLines (k : Nat) (s : Schema) : (s.onLines k).unplaced = s.unplaced :=
  unplaced_retouch_mapSpan _ s

/-- What an obfuscation makes of a schema, up to offsets. -/
theorem onLines_result (n : Numbering) (k : Nat) (s : Schema) :
    (s.result n).onLines k = (s.onLines k).result n :=
  s.retouch_result (R := .mapSpan _) (Value.numberEnv_mapSpan _)

theorem outline_onLines (n : Numbering) (k : Nat) (s : Schema) :
    (s.onLines k).outline n = s.outline n := (agrees_retouch _ s).outline

end Schema

end Pseudonym
