import Mathlib
import FrameLedger.Emulation.Pass
import FrameLedger.Settings.Build

/-!
# Modes of valid settings

Settings that pass validation name a stack mode in every permutation that names one, in any case of
its letters. Asked for the common mode of all permutations, the pass never comes upon a word that is
none (`Build.parse_of_validate`), but it holds the words of later permutations against the first one
letter by letter: `Build.emulateFor_of_validate`.
-/

namespace FrameLedger

theorem StackMode.ofText?_text (m : StackMode) : ofText? m.text = some m := by
  cases m <;> decide +kernel

/-- Settings and the pass take the same words for modes. -/
theorem StackMode.isSome_ofText? (s : String) :
    (ofText? s).isSome = Build.modeValues.any (Text.sameWord s) := by
  rw [ofText?, List.isSome_find?]
  simp only [all, Build.modeValues, List.any_cons, List.any_nil, text]

namespace Build

variable {b : Build}

/-- The words for the stack mode that permutations use, in order. -/
def modeWords (qs : List Permutation) : List String := qs.filterMap (·.get? stackModeProperty)

theorem mem_modeWords {qs : List Permutation} {w : String} :
    w ∈ modeWords qs ↔ ∃ q ∈ qs, q.get? stackModeProperty = some w := List.mem_filterMap

/-- Valid settings name modes. -/
theorem isSome_of_validate (h : b.validate = .ok ()) {w : String}
    (hw : w ∈ modeWords b.permutations) :
    (StackMode.ofText? w).isSome := by
  obtain ⟨q, hq, hget⟩ := mem_modeWords.1 hw
  have herror : b.error? = none := by
    rw [validate] at h
    split at h
    · cases h
    · assumption
  have hnone : (b.permutations.zipIdx.findSome? fun x => modeError? x.2 x.1) = none := by
    change ((b.permutations.zipIdx.findSome? fun x => modeError? x.2 x.1) <|> _) = none at herror
    cases hfirst : b.permutations.zipIdx.findSome? fun x => modeError? x.2 x.1 with
    | none => rfl
    | some e =>
      rw [hfirst] at herror
      cases herror
  obtain ⟨i, hi⟩ := List.mem_iff_getElem?.1 hq
  have hclean : modeError? i q = none :=
    List.findSome?_eq_none_iff.1 hnone (q, i) (List.mem_zipIdx_iff_getElem?.2 hi)
  by_contra hbad
  rw [StackMode.isSome_ofText?] at hbad
  rw [modeError?, hget] at hclean
  simp only [Option.bind_eq_bind, Option.bind_some, if_neg hbad] at hclean
  cases hclean

/-- What valid settings call a mode is read as one. -/
theorem parse_of_validate (h : b.validate = .ok ()) {w : String}
    (hw : w ∈ modeWords b.permutations) :
    ∃ m, StackMode.parse w = .ok m := by
  obtain ⟨m, hm⟩ := Option.isSome_iff_exists.1 (isSome_of_validate h hw)
  exact ⟨m, by rw [StackMode.parse, hm]⟩

end Build

/-! ## The common mode -/

section

variable {q : Permutation} {c : SortedMap String (List String)} {ps : List Properties}

theorem StackMode.resolve_missing (h : q.get? stackModeProperty = none) :
    resolve (⟨q, c⟩ :: ps) = .error .missing := by
  rw [resolve, Properties.stackMode?, h]

theorem StackMode.resolve_named {w : String} {m : StackMode} (h : q.get? stackModeProperty = some w)
    (hm : parse w = .ok m) : resolve (⟨q, c⟩ :: ps) =
      match (ps.filterMap Properties.stackMode?).find? (· != w) with
      | some w' => .error (.inconsistent w w')
      | none => .ok m := by
  rw [resolve, Properties.stackMode?, h]
  simp only [hm]
  rfl

end

theorem Program.emulateFor_eq_error (p : Program) (ps : List Properties) (e : ModeError) :
    p.emulateFor ps = .error e ↔ StackMode.resolve ps = .error e := by
  rw [emulateFor]
  rcases StackMode.resolve ps with e' | m
  · show Except.error e' = Except.error e ↔ Except.error e' = Except.error e
    simp only [Except.error.injEq]
  · refine iff_of_false ?_ nofun
    rcases m with _ | _ | _ <;> rcases ps with _ | ⟨q, qs⟩ <;> exact nofun

namespace Build

/-- Valid settings never fail for a word that is no mode. They fail for inconsistent modes exactly
if the first permutation names a mode and a later one spells what it names in another way, which
need not be another mode; it is one if all modes are spelled as they print. -/
theorem emulateFor_of_validate {b : Build} (h : b.validate = .ok ()) (p : Program) :
    (∀ w, p.emulateFor b.properties ≠ .error (.invalid w)) ∧
    ((∃ w w', p.emulateFor b.properties = .error (.inconsistent w w')) ↔
      ∃ q qs w, b.permutations = q :: qs ∧ q.get? stackModeProperty = some w ∧
        ∃ w' ∈ modeWords qs, w' ≠ w) ∧
    ((∀ w ∈ modeWords b.permutations, ∃ m : StackMode, w = m.text) → ∀ w w',
      p.emulateFor b.properties = .error (.inconsistent w w') →
        ∃ m m', StackMode.ofText? w = some m ∧ StackMode.ofText? w' = some m' ∧ m ≠ m') := by
  simp only [Program.emulateFor_eq_error, ne_eq, properties]
  rcases hqs : b.permutations with _ | ⟨q, qs⟩
  · simp [StackMode.resolve]
  rcases hget : q.get? stackModeProperty with _ | w
  · simp [StackMode.resolve_missing hget, hget]
  have hmem : w ∈ modeWords (q :: qs) := by simp [modeWords, hget]
  obtain ⟨m, hparse⟩ := parse_of_validate h (hqs ▸ hmem)
  have hwords : (qs.map
      fun q => (⟨q, b.configuration.map PropertyValue.values⟩ : Properties)).filterMap
      Properties.stackMode? = modeWords qs := by
    rw [List.filterMap_map]
    rfl
  simp only [List.map_cons, StackMode.resolve_named hget hparse, hwords]
  rcases hfind : (modeWords qs).find? (· != w) with _ | w'
  · have hsame : ∀ w' ∈ modeWords qs, w' = w := by simpa using hfind
    refine ⟨by simp, iff_of_false (by simp) ?_, by simp⟩
    rintro ⟨q', qs', v, heq, hv, v', hv', hne⟩
    obtain ⟨rfl, rfl⟩ := List.cons.inj heq
    obtain rfl := Option.some.inj (hget.symm.trans hv)
    exact hne (hsame v' hv')
  · have hne : w' ≠ w := by simpa using List.find?_some hfind
    have hlater : w' ∈ modeWords qs := List.mem_of_find?_eq_some hfind
    refine ⟨by simp, iff_of_true ⟨w, w', rfl⟩ ⟨q, qs, w, rfl, hget, w', hlater, hne⟩,
      fun hspelled v v' heq => ?_⟩
    obtain ⟨rfl, rfl⟩ : w = v ∧ w' = v' := by simpa using heq
    obtain ⟨n, rfl⟩ := hspelled w hmem
    have hlater' : w' ∈ modeWords (q :: qs) := by
      simp only [modeWords, List.filterMap_cons, hget]
      exact List.mem_cons_of_mem _ hlater
    obtain ⟨n', rfl⟩ := hspelled w' hlater'
    exact ⟨n, n', StackMode.ofText?_text n, StackMode.ofText?_text n', fun hn => hne (hn ▸ rfl)⟩

/-- Two permutations that differ in the case of a mode. -/
def twoSpellings : Build where
  permutations :=
    [.ofList [(stackModeProperty, "emulated")], .ofList [(stackModeProperty, "EMULATED")]]

/-- Two permutations with the modes spelled as they print. -/
theorem emulateFor_of_validate_twoModes :
    let b : Build := { permutations :=
      [.ofList [(stackModeProperty, "emulated")], ∅, .ofList [(stackModeProperty, "native")]] }
    b.validate = .ok () ∧ ∃ w w', Program.empty.emulateFor b.properties =
      .error (.inconsistent w w') := by
  have hvalid : Build.validate { permutations :=
      [.ofList [(stackModeProperty, "emulated")], ∅, .ofList [(stackModeProperty, "native")]] } =
        .ok () := by
    decide +kernel
  refine ⟨hvalid, (emulateFor_of_validate hvalid .empty).2.1.2
    ⟨_, _, "emulated", rfl, ?_, "native", ?_, ?_⟩⟩
  · decide +kernel
  · decide +kernel
  · decide

/-- Valid settings that name one mode in two spellings fail for inconsistent modes. -/
theorem spellings_disagree : twoSpellings.validate = .ok () ∧
    (∀ w ∈ modeWords twoSpellings.permutations, StackMode.ofText? w = some .emulated) ∧
      StackMode.resolve twoSpellings.properties = .error (.inconsistent "emulated" "EMULATED") := by
  decide +kernel

end Build

end FrameLedger
