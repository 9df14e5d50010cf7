import Mathlib
import FrameLedger.Value.Store

/-!
# Frames and lookup

What each operation of the store does to the bindings of a frame, and the recursion that `owner?`
and `lookup` follow when every frame comes after its parent (`owner?_of_parent?`,
`lookup_of_parent?`).
-/

namespace FrameLedger

namespace Bindings

@[simp] theorem get?_put_self (s : SymbolId) (v : Value) :
    ∀ b : Bindings, get? s (put s v b) = some v
  | [] => by simp [put, get?]
  | (s', v') :: rest => by
    by_cases h : s' = s
    · simp [put, get?, h]
    · simp [put, get?, h, get?_put_self s v rest]

theorem get?_put_of_ne {s t : SymbolId} (h : t ≠ s) (v : Value) :
    ∀ b : Bindings, get? t (put s v b) = get? t b
  | [] => by simp [put, get?, Ne.symm h]
  | (s', v') :: rest => by
    by_cases h' : s' = s
    · subst h'
      simp [put, get?, Ne.symm h]
    · simp [put, get?, h', get?_put_of_ne h v rest]

theorem get?_put (s t : SymbolId) (v : Value) (b : Bindings) :
    get? t (put s v b) = if t = s then some v else get? t b := by
  by_cases h : t = s
  · subst h
    simp
  · rw [get?_put_of_ne h, if_neg h]

end Bindings

namespace Store

/-- The binding of a symbol in this very frame. -/
def local? (h : Store) (f : FrameId) (s : SymbolId) : Option Value := Bindings.get? s (h.bindings f)

def Has (h : Store) (f : FrameId) : Prop := f.index < h.frames.size

instance (h : Store) (f : FrameId) : Decidable (h.Has f) := inferInstanceAs (Decidable (_ < _))

theorem local?_eq_none_of_not_has {h : Store} {f : FrameId} (hf : ¬ h.Has f) (s : SymbolId) :
    h.local? f s = none := by
  have : h.frames[f.index]? = none := Array.getElem?_eq_none (Nat.le_of_not_lt hf)
  simp [local?, bindings, this, Bindings.get?]

theorem has_of_local? {h : Store} {f : FrameId} {s : SymbolId} {v : Value}
    (hv : h.local? f s = some v) : h.Has f := by
  by_cases hf : h.Has f
  · exact hf
  · simp [local?_eq_none_of_not_has hf] at hv

theorem has_of_parent? {h : Store} {f p : FrameId} (hp : h.parent? f = some p) : h.Has f := by
  by_cases hf : h.Has f
  · exact hf
  · have : h.frames[f.index]? = none := Array.getElem?_eq_none (Nat.le_of_not_lt hf)
    simp [parent?, this] at hp

/-! ## What the operations do to a frame -/

section Define

variable (h : Store) (f : FrameId) (s : SymbolId) (v : Value)

@[simp] theorem define_arrays : (h.define f s v).arrays = h.arrays := rfl

@[simp] theorem define_objects : (h.define f s v).objects = h.objects := rfl

@[simp] theorem define_closures : (h.define f s v).closures = h.closures := rfl

@[simp] theorem has_define {g : FrameId} : (h.define f s v).Has g ↔ h.Has g := by
  simp [Has, define]

@[simp] theorem size_frames_define : (h.define f s v).frames.size = h.frames.size := by
  simp [define]

@[simp] theorem parent?_define (g : FrameId) : (h.define f s v).parent? g = h.parent? g := by
  simp only [parent?, define, Array.getElem?_modify]
  split
  · cases h.frames[g.index]? <;> rfl
  · rfl

theorem local?_define (g : FrameId) (t : SymbolId) :
    (h.define f s v).local? g t = if g = f ∧ t = s ∧ h.Has f then some v else h.local? g t := by
  simp only [local?, bindings, define, Array.getElem?_modify]
  by_cases hg : f.index = g.index
  · have hfg : g = f := by
      cases f
      cases g
      simp_all
    subst hfg
    rw [if_pos rfl]
    by_cases hf : h.Has g
    · rw [Array.getElem?_eq_getElem hf]
      simp [Bindings.get?_put, hf]
    · have : h.frames[g.index]? = none := Array.getElem?_eq_none (Nat.le_of_not_lt hf)
      simp [this, hf]
  · have hfg : g ≠ f := by
      rintro rfl
      exact hg rfl
    simp [hg, hfg]

theorem local?_define_of_ne {g : FrameId} {t : SymbolId} (ht : t ≠ s) :
    (h.define f s v).local? g t = h.local? g t := by
  simp [local?_define, ht]

theorem local?_define_self (hf : h.Has f) : (h.define f s v).local? f s = some v := by
  simp [local?_define, hf]

theorem isSome_local?_define {g : FrameId} {t : SymbolId} (ht : (h.local? g t).isSome) :
    ((h.define f s v).local? g t).isSome := by
  rw [local?_define]
  split
  · rfl
  · exact ht

end Define

section Declare

variable (h : Store) (f : FrameId) (s : SymbolId)

theorem declare_eq : h.declare f s = h ∨
    h.local? f s = none ∧ h.declare f s = h.define f s .undefined := by
  by_cases hs : (Bindings.get? s (h.bindings f)).isSome
  · exact .inl (by simp [declare, hs])
  · exact .inr ⟨by simpa [local?] using hs, by simp [declare, hs]⟩

theorem isSome_local?_declare (hf : h.Has f) : ((h.declare f s).local? f s).isSome := by
  by_cases hs : (Bindings.get? s (h.bindings f)).isSome
  · simp only [declare, hs, if_true]
    exact hs
  · simp [declare, hs, local?_define, hf]

end Declare

section NewFrame

variable (h : Store) (p : FrameId)

@[simp] theorem newFrame_arrays : (h.newFrame p).2.arrays = h.arrays := rfl

@[simp] theorem newFrame_objects : (h.newFrame p).2.objects = h.objects := rfl

@[simp] theorem newFrame_closures : (h.newFrame p).2.closures = h.closures := rfl

@[simp] theorem size_frames_newFrame : (h.newFrame p).2.frames.size = h.frames.size + 1 := by
  simp [newFrame]

theorem has_newFrame {g : FrameId} : (h.newFrame p).2.Has g ↔ h.Has g ∨ g = (h.newFrame p).1 := by
  cases g
  simp [Has, newFrame]
  omega

theorem not_has_newFrame : ¬ h.Has (h.newFrame p).1 := by
  simp [Has, newFrame]

theorem local?_newFrame (g : FrameId) (s : SymbolId) :
    (h.newFrame p).2.local? g s = h.local? g s := by
  simp only [local?, bindings, newFrame, Array.getElem?_push]
  split
  · next hg =>
    rw [hg, Array.getElem?_eq_none (Nat.le_refl _)]
    rfl
  · rfl

theorem local?_newFrame_self (s : SymbolId) :
    (h.newFrame p).2.local? (h.newFrame p).1 s = none := by
  rw [local?_newFrame]
  exact local?_eq_none_of_not_has (not_has_newFrame h p) s

theorem parent?_newFrame (g : FrameId) :
    (h.newFrame p).2.parent? g = if g = (h.newFrame p).1 then some p else h.parent? g := by
  cases g
  simp only [parent?, newFrame, Array.getElem?_push, FrameId.mk.injEq]
  split <;> rfl

end NewFrame

/-! ## Lookup -/

/-- Every frame comes after its parent, and the global one is the only frame without. -/
structure Rooted (h : Store) : Prop where
  has_globals : h.Has globals
  parent_lt : ∀ f p, h.parent? f = some p → p.index < f.index
  has_parent : ∀ f, h.Has f → f ≠ globals → ∃ p, h.parent? f = some p

theorem Rooted.define {h : Store} (hh : h.Rooted) (f : FrameId) (s : SymbolId) (v : Value) :
    (h.define f s v).Rooted where
  has_globals := by simpa using hh.has_globals
  parent_lt := by simpa using hh.parent_lt
  has_parent := by simpa using hh.has_parent

theorem ownerWithin_of_local? {h : Store} {f : FrameId} {s : SymbolId} (hs : (h.local? f s).isSome)
    (fuel : Nat) : h.ownerWithin s (fuel + 1) f = some f := by
  simp only [local?] at hs
  simp [ownerWithin, hs]

theorem ownerWithin_of_parent? {h : Store} {f p : FrameId} {s : SymbolId} (hs : h.local? f s = none)
    (hp : h.parent? f = some p) (fuel : Nat) :
    h.ownerWithin s (fuel + 1) f = h.ownerWithin s fuel p := by
  simp only [local?] at hs
  simp [ownerWithin, hs, hp]

theorem ownerWithin_of_no_parent {h : Store} {f : FrameId} {s : SymbolId} (hs : h.local? f s = none)
    (hp : h.parent? f = none) (fuel : Nat) : h.ownerWithin s fuel f = none := by
  cases fuel with
  | zero => rfl
  | succ fuel =>
    simp only [local?] at hs
    simp [ownerWithin, hs, hp]

/-- More fuel than the index of the frame changes nothing. -/
theorem ownerWithin_eq_owner? {h : Store} (hh : h.Rooted) (s : SymbolId) :
    ∀ (fuel : Nat) (f : FrameId), f.index < fuel → h.ownerWithin s fuel f = h.owner? f s
  | 0, _, hf => absurd hf (Nat.not_lt_zero _)
  | fuel + 1, f, hf => by
    unfold owner?
    rcases hs : h.local? f s with _ | v
    · rcases hp : h.parent? f with _ | p
      · rw [ownerWithin_of_no_parent hs hp, ownerWithin_of_no_parent hs hp]
      · have hlt := hh.parent_lt f p hp
        rw [ownerWithin_of_parent? hs hp, ownerWithin_of_parent? hs hp,
          ownerWithin_eq_owner? hh s fuel p (by omega),
          ownerWithin_eq_owner? hh s f.index p hlt]
    · have hv : (h.local? f s).isSome := by simp [hs]
      rw [ownerWithin_of_local? hv, ownerWithin_of_local? hv]
termination_by fuel => fuel

theorem owner?_of_local? {h : Store} {f : FrameId} {s : SymbolId} (hs : (h.local? f s).isSome) :
    h.owner? f s = some f :=
  ownerWithin_of_local? hs _

theorem owner?_of_parent? {h : Store} (hh : h.Rooted) {f p : FrameId} {s : SymbolId}
    (hs : h.local? f s = none) (hp : h.parent? f = some p) : h.owner? f s = h.owner? p s := by
  unfold owner?
  rw [ownerWithin_of_parent? hs hp]
  exact ownerWithin_eq_owner? hh s _ p (hh.parent_lt f p hp)

theorem owner?_of_no_parent {h : Store} {f : FrameId} {s : SymbolId} (hs : h.local? f s = none)
    (hp : h.parent? f = none) : h.owner? f s = none :=
  ownerWithin_of_no_parent hs hp _

theorem lookup_eq_of_owner? {h : Store} {f g : FrameId} {s : SymbolId}
    (ho : h.owner? f s = some g) :
    h.lookup f s = h.local? g s := by
  simp [lookup, ho, local?]

theorem lookup_of_local? {h : Store} {f : FrameId} {s : SymbolId} {v : Value}
    (hv : h.local? f s = some v) : h.lookup f s = some v := by
  rw [lookup_eq_of_owner? (owner?_of_local? (by simp [hv])), hv]

theorem lookup_of_parent? {h : Store} (hh : h.Rooted) {f p : FrameId} {s : SymbolId}
    (hs : h.local? f s = none) (hp : h.parent? f = some p) : h.lookup f s = h.lookup p s := by
  simp [lookup, owner?_of_parent? hh hs hp]

theorem parent?_globals {h : Store} (hh : h.Rooted) : h.parent? globals = none := by
  rcases hp : h.parent? globals with _ | p
  · rfl
  · exact absurd (hh.parent_lt _ _ hp) (Nat.not_lt_zero _)

/-- What the owner of a symbol is: it binds the symbol. -/
theorem isSome_of_owner? {h : Store} (s : SymbolId) {f g : FrameId} (ho : h.owner? f s = some g) :
    (h.local? g s).isSome := by
  unfold owner? at ho
  generalize f.index + 1 = fuel at ho
  induction fuel generalizing f with
  | zero => simp [ownerWithin] at ho
  | succ fuel ih =>
    simp only [ownerWithin] at ho
    split at ho
    · next hs =>
      obtain rfl := Option.some.inj ho
      exact hs
    · rcases hp : h.parent? f with _ | p
      · simp [hp] at ho
      · rw [hp] at ho
        exact ih ho

/-- A symbol that only the global frame binds is found there from everywhere. -/
theorem owner?_eq_globals {h : Store} (hh : h.Rooted) {s : SymbolId}
    (hs : ∀ f, f ≠ globals → h.local? f s = none) (hg : (h.local? globals s).isSome) :
    ∀ (n : Nat) (f : FrameId), f.index = n → h.Has f → h.owner? f s = some globals := by
  intro n
  induction n using Nat.strongRecOn with
  | _ n ih =>
    rintro f rfl hf
    by_cases hfg : f = globals
    · subst hfg
      exact owner?_of_local? hg
    · obtain ⟨p, hp⟩ := hh.has_parent f hf hfg
      have hlt := hh.parent_lt f p hp
      rw [owner?_of_parent? hh (hs f hfg) hp]
      exact ih p.index hlt p rfl (Nat.lt_trans hlt hf)

end Store

end FrameLedger
