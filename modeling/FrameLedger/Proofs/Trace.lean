import Mathlib
import FrameLedger.Run.Machine

/-!
# Traces

What happens in a run, at whatever nesting: `Happens e es` says that `e` is one of the events `es`,
or is kept together with others in one of them.
-/

namespace FrameLedger

namespace Event

/-- The events that are kept together in one. -/
def inside : Event → List Event
  | .result es | .call _ _ _ es _ _ => es
  | _ => []

/-- The stores an event shows. -/
def stores : Event → List Store
  | .store h | .element h .. | .threw h => [h]
  | .result _ => []
  | .call _ _ before _ _ after => [before, after]

end Event

/-- The event is one of these or happens inside one of them. -/
inductive Happens (e : Event) : List Event → Prop
  | here (es : List Event) : Happens e (e :: es)
  | later {e' : Event} {es : List Event} : Happens e es → Happens e (e' :: es)
  | within {e' : Event} {es : List Event} : Happens e e'.inside → Happens e (e' :: es)

namespace Happens

variable {e e' : Event} {es : List Event}

theorem exists_mem (h : Happens e es) : ∃ e' ∈ es, Happens e [e'] := by
  induction h with
  | here es => exact ⟨e, List.mem_cons_self, .here []⟩
  | later _ ih =>
    obtain ⟨x, hx, h⟩ := ih
    exact ⟨x, List.mem_cons_of_mem _ hx, h⟩
  | within h _ => exact ⟨_, List.mem_cons_self, .within h⟩

theorem singleton_iff : Happens e [e'] ↔ e = e' ∨ Happens e e'.inside := by
  refine ⟨fun h => ?_, ?_⟩
  · cases h with
    | here => exact .inl rfl
    | later h => nomatch h
    | within h => exact .inr h
  · rintro (rfl | h)
    · exact .here []
    · exact .within h

/-- An event that keeps nothing together is all that happens in it. -/
theorem eq_of_inside_nil (h : Happens e [e']) (hin : e'.inside = []) : e = e' := by
  rcases singleton_iff.1 h with h | h
  · exact h
  · rw [hin] at h
    nomatch h

theorem append_left (h : Happens e es) (fs : List Event) : Happens e (es ++ fs) := by
  induction h with
  | here es => exact .here _
  | later _ ih => exact .later ih
  | within h _ => exact .within h

theorem append_right (h : Happens e es) : ∀ ds : List Event, Happens e (ds ++ es)
  | [] => h
  | _ :: ds => .later (h.append_right ds)

theorem of_mem (h : Happens e [e']) (he : e' ∈ es) : Happens e es := by
  obtain ⟨ds, fs, rfl⟩ := List.append_of_mem he
  exact (h.append_left fs).append_right ds

end Happens

end FrameLedger
