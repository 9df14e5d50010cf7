import FrameLedger.Proofs.Tables
import FrameLedger.Settings.Loader

/-!
# Which settings count

Settings from the user's file, the project and the environment are put one over the other. A map is
known by what it has for each key (`SortedMap.ext_get?`), and with that every key and every
permutation is found where it was set last: `Loader.assemble_precedence`.
-/

namespace FrameLedger

namespace SortedMap

variable {κ α : Type} [Ord κ]

theorem findEntry_eq_none {k : κ} {entries : List (κ × α)}
    (h : ∀ e ∈ entries, compare k e.1 = .lt) :
    findEntry k entries = none := by
  induction entries with
  | nil => rfl
  | cons e rest ih =>
    rw [List.forall_mem_cons] at h
    rw [findEntry, h.1, if_neg (by decide), ih h.2]

variable [Std.TransOrd κ] [Std.LawfulEqOrd κ]

theorem findEntry_of_mem {entries : List (κ × α)} (h : Increasing entries) {e : κ × α}
    (he : e ∈ entries) :
    findEntry e.1 entries = some e.2 := by
  induction entries with
  | nil => cases he
  | cons e' rest ih =>
    obtain ⟨hlt, hrest⟩ := List.pairwise_cons.1 h
    rcases List.mem_cons.1 he with rfl | he
    · rw [findEntry, if_pos Std.ReflCmp.compare_self]
    · have hne : compare e.1 e'.1 ≠ .eq := by
        rw [Std.OrientedCmp.gt_iff_lt.2 (hlt e he)]
        decide
      rw [findEntry, if_neg hne, ih hrest he]

theorem mem_entries_iff {m : SortedMap κ α} {k : κ} {v : α} :
    (k, v) ∈ m.entries ↔ m.get? k = some v :=
  ⟨findEntry_of_mem m.increasing, mem_entries_of_get?⟩

/-- A map is what it has for each key. -/
theorem ext_get? {m m' : SortedMap κ α} (h : ∀ k, m.get? k = m'.get? k) : m = m' := by
  have hnodup (m : SortedMap κ α) : m.entries.Nodup := m.increasing.imp fun {a b} hlt heq => by
    subst heq
    simp at hlt
  have hperm : m.entries.Perm m'.entries :=
    (List.perm_ext_iff_of_nodup (hnodup m) (hnodup m')).2 fun e => by
    rw [mem_entries_iff, mem_entries_iff, h]
  refine ext (hperm.eq_of_pairwise (fun a b _ _ hab hba => ?_) m.increasing m'.increasing)
  rw [Std.OrientedCmp.gt_iff_lt.2 hab] at hba
  cases hba

theorem get?_insert (m : SortedMap κ α) (k k' : κ) [Decidable (k' = k)] (v : α) :
    (m.insert k v).get? k' = if k' = k then some v else m.get? k' := by
  split
  · next h => rw [h, get?_insert_self]
  · next h => exact get?_insert_of_ne m (fun heq => h (Std.LawfulEqOrd.eq_of_compare heq)) v

theorem get?_insertMany (m m' : SortedMap κ α) (k : κ) :
    (m.insertMany m'.entries).get? k = (m'.get? k).or (m.get? k) := by
  obtain ⟨entries, hinc⟩ := m'
  induction entries generalizing m with
  | nil => rfl
  | cons e rest ih =>
    obtain ⟨hlt, hrest⟩ := List.pairwise_cons.1 hinc
    have hrest := ih (m.insert e.1 e.2) hrest
    rw [insertMany, List.foldl_cons]
    refine hrest.trans ?_
    simp only [get?, findEntry]
    split
    · next heq =>
      obtain rfl := Std.LawfulEqOrd.eq_of_compare heq
      rw [findEntry_eq_none hlt]
      exact get?_insert_self m e.1 e.2
    · next hne => exact congrArg _ (get?_insert_of_ne m hne e.2)

end SortedMap

/-! ## One over the other -/

namespace Build

theorem get?_merge (a b : Build) (k : String) :
    (a.merge b).configuration.get? k = (b.configuration.get? k).or (a.configuration.get? k) :=
  SortedMap.get?_insertMany ..

theorem ext_get? {a b : Build} (hc : ∀ k, a.configuration.get? k = b.configuration.get? k)
    (hp : a.permutations = b.permutations) : a = b := by
  have hc := SortedMap.ext_get? hc
  cases a
  cases b
  cases hc
  cases hp
  rfl

theorem merge_assoc (a b c : Build) : (a.merge b).merge c = a.merge (b.merge c) := by
  refine ext_get? (fun k => by simp only [get?_merge, Option.or_assoc]) ?_
  by_cases hc : c.permutations.isEmpty = true <;> simp [merge, hc]

theorem empty_merge (b : Build) : merge {} b = b := by
  refine ext_get? (fun k => (get?_merge {} b k).trans (Option.or_none ..)) ?_
  simp only [merge]
  split
  · next h => exact (List.isEmpty_iff.1 h).symm
  · rfl

theorem merge_empty (b : Build) : b.merge {} = b := rfl

/-- Where no key for permutations may occur, there are none. -/
theorem permutations_ofToml? {t : Toml} {b : Build} (h : ofToml? ["configuration"] t = some b) :
    b.permutations = [] := by
  obtain ⟨es, -, h⟩ := Option.bind_eq_some_iff.1 h
  split at h
  · next hkeys =>
    have hnone : es.find? (·.1 == "permutation") = none := List.find?_eq_none.2 fun e he heq => by
      have hkey : e.1 = "configuration" := by simpa using List.all_eq_true.1 hkeys e he
      rw [hkey] at heq
      cases heq
    obtain ⟨c, -, h⟩ := Option.bind_eq_some_iff.1 h
    rw [Toml.getD?, hnone] at h
    obtain rfl := Option.some.inj h
    rfl
  · cases h

theorem permutations_readGlobal {text : String} {b : Build} (h : readGlobal text = .ok b) :
    b.permutations = [] := by
  unfold readGlobal readWith at h
  split at h
  · cases h
  · next b' hb =>
    obtain ⟨t, -, ht⟩ := Option.bind_eq_some_iff.1 hb
    cases hv : b'.validate with
    | error e =>
      rw [hv] at h
      cases h
    | ok u =>
      rw [hv] at h
      obtain rfl := Except.ok.inj h
      exact permutations_ofToml? ht

end Build

/-- A user's settings have no permutations. -/
theorem Loader.permutations_globalBuild {l : Loader} {g : Build} (h : l.globalBuild = .ok g) :
    g.permutations = [] := by
  unfold globalBuild at h
  split at h
  · cases htext : l.tree.read l.globalFile with
    | error e =>
      rw [htext] at h
      cases h
    | ok text =>
      rw [htext] at h
      exact Build.permutations_readGlobal h
  · obtain rfl := Except.ok.inj h
    rfl

/-! ## The environment -/

namespace Environment

/-- A text that turns a flag on: `true`, `1` or `yes`, whatever case its letters have. Any other
text turns the flag off. -/
def Affirms (s : String) : Prop := s.toLower = "true" ∨ s.toLower = "1" ∨ s.toLower = "yes"

instance (s : String) : Decidable (Affirms s) := inferInstanceAs (Decidable (_ ∨ _ ∨ _))

theorem isYes_eq_decide (s : String) : isYes s = decide (Affirms s) := by
  rw [Bool.eq_iff_iff, decide_eq_true_iff]
  simp [isYes, Affirms, Text.sameWord, String.toLower]

/-- What the environment sets a configuration key to. -/
def value? (env : Environment) (k : String) : Option PropertyValue :=
  if k = recordFileNamesProperty then env.recordFileNames.map fun v => .bool (decide (Affirms v))
  else if k = recordLineNumbersProperty then env.recordLineNumbers.map fun v =>
    .bool (decide (Affirms v))
  else none

theorem get?_apply (env : Environment) (b : Build) (k : String) :
    (env.apply b).configuration.get? k = (env.value? k).or (b.configuration.get? k) := by
  have hselect (b : Build) : (env.stackMode.elim b (b.select stackModeProperty)).configuration =
      b.configuration := by
    cases env.stackMode <;> rfl
  have hset (b : Build) (x : Option String) (name : String) :
      ((x.elim b fun v => b.set name (.bool (isYes v))).configuration.get? k) =
        if k = name then (x.map fun v => .bool (isYes v)).or (b.configuration.get? k)
          else b.configuration.get? k := by
    cases x with
    | none => simp
    | some v => exact SortedMap.get?_insert ..
  have hne : recordFileNamesProperty ≠ recordLineNumbersProperty := by decide
  unfold apply value?
  rw [hset, hset, hselect]
  simp only [isYes_eq_decide]
  split_ifs <;> simp_all

theorem permutations_apply (env : Environment) (b : Build) : (env.apply b).permutations =
    env.stackMode.elim b.permutations fun mode =>
      (if b.permutations.isEmpty then [∅] else b.permutations).map
        (·.insert stackModeProperty mode) := by
  unfold apply
  cases env.stackMode <;> cases env.recordFileNames <;> cases env.recordLineNumbers <;> rfl

end Environment

/-! ## Loading -/

/-- Settings in which the environment counts for more than the project, and that for more than the
user's. The permutations are the project's, or a new one where a mode is asked for and there is
none. -/
structure Build.Assembled (g project : Build) (env : Environment) (b : Build) : Prop where
  configuration : ∀ k, b.configuration.get? k =
    (env.value? k).or ((project.configuration.get? k).or (g.configuration.get? k))
  permutations : env.stackMode = none → b.permutations = project.permutations
  selected : ∀ mode, env.stackMode = some mode →
    List.Forall₂ (fun p q => ∀ k, q.get? k = if k = stackModeProperty then some mode else p.get? k)
      (if project.permutations = [] then [∅] else project.permutations) b.permutations

namespace Build.Assembled

variable {g project : Build} {env : Environment}

theorem apply_merge (hg : g.permutations = []) :
    Assembled g project env (env.apply (g.merge project)) := by
  have hmerge : (g.merge project).permutations = project.permutations := by
    unfold merge
    dsimp only
    split
    · next h => rw [hg, List.isEmpty_iff.1 h]
    · rfl
  have happly := env.permutations_apply (g.merge project)
  rw [hmerge] at happly
  refine ⟨fun k => by rw [env.get?_apply, get?_merge], fun h => by
    rw [happly, h]; rfl, fun mode h => ?_⟩
  rw [happly, h]
  simp only [Option.elim_some, List.isEmpty_iff]
  exact List.forall₂_map_right_iff.2 (List.forall₂_same.2 fun p _ k => SortedMap.get?_insert ..)

theorem unique {b b' : Build} (h : Assembled g project env b) (h' : Assembled g project env b') :
    b = b' := by
  refine ext_get? (fun k => (h.configuration k).trans (h'.configuration k).symm) ?_
  cases hmode : env.stackMode with
  | none => exact (h.permutations hmode).trans (h'.permutations hmode).symm
  | some mode =>
    refine Relator.RightUnique.forall₂ (fun p q q' hq hq' => ?_) (h.selected mode hmode)
      (h'.selected mode hmode)
    exact SortedMap.ext_get? fun k => (hq k).trans (hq' k).symm

end Build.Assembled

/-- What is loaded is the settings that count, if they are valid; nothing else makes loading
fail. -/
theorem Loader.assemble_precedence {l : Loader} {g : Build} (hg : l.globalBuild = .ok g)
    (project : Build) (root : Option Path) :
    (∃ b : Build, (∀ b', Build.Assembled g project l.env b' ↔ b' = b) ∧
      (∀ e, l.assemble project root = .error e ↔ b.validate = .error e) ∧
      ∀ x, l.assemble project root = .ok x ↔ b.validate = .ok () ∧ x = ⟨b, root⟩) ∧
    (∀ a b c : Build, (a.merge b).merge c = a.merge (b.merge c)) ∧
      (∀ b : Build, Build.merge {} b = b) ∧ ∀ b : Build, b.merge {} = b := by
  refine ⟨⟨l.env.apply (g.merge project), fun b' => ⟨fun h => ?_, ?_⟩, ?_⟩, Build.merge_assoc,
    Build.empty_merge, Build.merge_empty⟩
  · exact h.unique (.apply_merge (l.permutations_globalBuild hg))
  · rintro rfl
    exact .apply_merge (l.permutations_globalBuild hg)
  · have hassemble : l.assemble project root =
        (l.env.apply (g.merge project)).validate.map fun _ =>
          ⟨l.env.apply (g.merge project), root⟩ := by
      rw [assemble, hg]
      rfl
    rw [hassemble]
    cases (l.env.apply (g.merge project)).validate with
    | error e => simp [Except.map]
    | ok u => simp [Except.map, eq_comm]

/-- A user's file with one flag off and one on, and an environment that names a mode and turns both
flags around. -/
def twoSources : Loader where
  tree := [(globalPath ["home"], .file
    ("[configuration]\n\"compiler.emulatedStack.recordFileNames\" = false\n" ++
      "\"compiler.emulatedStack.recordLineNumbers\" = true\n").toUTF8)]
  env :=
    { stackMode := some "Native", recordFileNames := some "Yes", recordLineNumbers := some "no" }
  globalFile := globalPath ["home"]

theorem Loader.assemble_precedence_twoSources :
    let g : Build :=
      ⟨.ofList [(recordFileNamesProperty, .bool false), (recordLineNumbersProperty, .bool true)],
        []⟩
    let project : Build := ⟨.ofList [("user.agent", .text "gecko")], []⟩
    twoSources.globalBuild = .ok g ∧ ∃ b : Build,
      (∀ e, twoSources.assemble project none = .error e ↔ b.validate = .error e) ∧
      b.configuration.get? recordFileNamesProperty = some (.bool true) ∧
      b.configuration.get? recordLineNumbersProperty = some (.bool false) ∧
      b.configuration.get? "user.agent" = some (.text "gecko") ∧
      ∃ q, b.permutations = [q] ∧ q.get? stackModeProperty = some "Native" := by
  intro g project
  have hg : twoSources.globalBuild = .ok g := by decide +kernel
  obtain ⟨⟨b, hb, herror, -⟩, -⟩ := Loader.assemble_precedence hg project none
  have h : Build.Assembled g project twoSources.env b := (hb b).2 rfl
  refine ⟨hg, b, herror, (h.configuration _).trans ?_, (h.configuration _).trans ?_,
    (h.configuration _).trans ?_, ?_⟩
  · decide +kernel
  · decide +kernel
  · decide +kernel
  · have hselected : List.Forall₂ _ [∅] b.permutations := h.selected "Native" rfl
    obtain ⟨q, qs, hq, hqs, heq⟩ := List.forall₂_cons_left_iff.1 hselected
    cases hqs
    exact ⟨q, heq, hq stackModeProperty⟩

end FrameLedger
