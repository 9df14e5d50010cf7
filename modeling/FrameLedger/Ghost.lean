/-!
# Ghosts

What is only spoken about. A ghost stands for one value but does not hold it: at run time nothing of
it is there, so theorems may follow a history that a run could not afford to keep.
-/

namespace FrameLedger

structure Ghost (α : Type) where
  is : α → Prop
  single : ∃ a, is = (a = ·)

namespace Ghost

variable {α β : Type}

@[inline] def of (a : α) : Ghost α := ⟨(a = ·), a, rfl⟩

/-- The value a ghost stands for. -/
noncomputable def val (g : Ghost α) : α := g.single.choose

@[inline] def bind (g : Ghost α) (f : α → Ghost β) : Ghost β := ⟨(f g.val).is, (f g.val).single⟩

@[inline] def map (f : α → β) (g : Ghost α) : Ghost β := g.bind fun a => of (f a)

@[simp] theorem val_of (a : α) : (of a).val = a := by
  have h : (a = a) = ((of a).val = a) := congrFun (of a).single.choose_spec a
  exact h.mp rfl

@[simp] theorem bind_eq (g : Ghost α) (f : α → Ghost β) : g.bind f = f g.val := rfl

@[simp] theorem map_eq (f : α → β) (g : Ghost α) : g.map f = of (f g.val) := rfl

end Ghost

end FrameLedger
