import FrameLedger.Json.Printer
import FrameLedger.Json.Reader
import FrameLedger.Proofs.Numerals

/-!
# Texts of JSON values

A printed value is cut into the tokens it was printed from (`Json.spells_print`), and these are read
as the value (`Json.readValue_tokens`). Its numbers have to be numbers of the grammar that do not
overflow, and it may nest as deep as is read: `Json.parse?_pretty`.
-/

namespace FrameLedger

namespace Json

/-! ## Strings -/

namespace Token

theorem unit?_control :
    ∀ n < 0x20, unit? '0' '0' (Text.hexDigit (n / 16)) (Text.hexDigit (n % 16)) = some n := by
  decide

/-- An escaped character is read as the character. -/
theorem readString_escapeChar (c : Char) (cs acc : List Char) :
    readString (escapeChar c ++ cs) acc = readString cs (c :: acc) := by
  unfold escapeChar
  split
  iterate 7 rfl
  next hquote hslash _ _ _ _ _ =>
    split
    · next hlt =>
      have hhigh : isHighUnit c.toNat = false := by simp [isHighUnit]; omega
      have hlow : isLowUnit c.toNat = false := by simp [isLowUnit]; omega
      simp only [List.cons_append, List.nil_append, readString, unit?_control _ hlt, hhigh, hlow,
        Bool.false_eq_true, if_false, Char.ofNat_toNat]
    · next hlt =>
      rw [List.singleton_append, readString, if_neg (by simpa [hlt] using hslash)]
      · exact hquote
      · exact fun _ _ _ _ _ h => (hslash h).elim
      · exact fun _ _ h => (hslash h).elim

theorem readString_quoted (s : List Char) (cs acc : List Char) :
    readString (s.flatMap escapeChar ++ '"' :: cs) acc = some (.ofList (acc.reverse ++ s), cs) := by
  induction s generalizing acc with
  | nil => rw [List.append_nil]; rfl
  | cons c s ih =>
    rw [List.flatMap_cons, List.append_assoc, readString_escapeChar, ih, List.reverse_cons,
      List.append_assoc, List.singleton_append]

/-! ## Tokens -/

/-- A text and the tokens it is cut into. -/
inductive Spells : List Char → List Token → Prop where
  | nil : Spells [] []
  | blank {c : Char} {cs : List Char} {ts : List Token} : isBlank c = true → Spells cs ts →
      Spells (c :: cs) ts
  | token {c : Char} {cs rest : List Char} {t : Token} {ts : List Token} : isBlank c = false →
    read (c :: cs) = some (t, rest) → rest.length ≤ cs.length → Spells rest ts →
      Spells (c :: cs) (t :: ts)

variable {cs rest : List Char} {ts : List Token}

theorem Spells.readAllWithin (h : Spells cs ts) :
    ∀ {fuel : Nat} (acc : List Token), cs.length < fuel →
      readAllWithin fuel cs acc = some (acc.reverse ++ ts) := by
  induction h with
  | nil =>
    intro fuel acc hfuel
    obtain ⟨fuel, rfl⟩ := Nat.exists_eq_succ_of_ne_zero (Nat.ne_of_gt hfuel)
    rw [List.append_nil]
    rfl
  | blank hblank _ ih =>
    intro fuel acc hfuel
    obtain ⟨fuel, rfl⟩ := Nat.exists_eq_succ_of_ne_zero (Nat.ne_of_gt (Nat.zero_lt_of_lt hfuel))
    rw [Token.readAllWithin, if_pos hblank]
    exact ih acc (Nat.lt_of_succ_lt_succ hfuel)
  | token hblank hread hlength _ ih =>
    intro fuel acc hfuel
    obtain ⟨fuel, rfl⟩ := Nat.exists_eq_succ_of_ne_zero (Nat.ne_of_gt (Nat.zero_lt_of_lt hfuel))
    rw [Token.readAllWithin, if_neg (by rw [hblank]; exact Bool.false_ne_true), hread]
    dsimp only
    rw [ih _ (Nat.lt_of_le_of_lt hlength (Nat.lt_of_succ_lt_succ hfuel)), List.reverse_cons,
      List.append_assoc, List.singleton_append]

theorem Spells.readAll (h : Spells cs ts) : readAll cs = some ts :=
  h.readAllWithin [] (Nat.lt_succ_self _)

theorem spells_newline (level : Nat) (h : Spells rest ts) :
    Spells ((newline level).toList ++ rest) ts := by
  rw [newline, toList_pushn, List.append_assoc]
  refine .blank rfl ?_
  generalize 2 * level = n
  induction n with
  | zero => exact h
  | succ n ih => exact .blank rfl ih

theorem spells_quote (s : String) (h : Spells rest ts) :
    Spells ((quote s).toList ++ rest) (.string s :: ts) := by
  have hquote : (quote s).toList ++ rest = '"' :: (s.toList.flatMap escapeChar ++ '"' :: rest) := by
    simp [quote]
  rw [hquote]
  refine .token rfl (?_ : (readString _ []).map _ = _) ?_ h
  · rw [readString_quoted, List.reverse_nil, List.nil_append, String.ofList_toList]
    rfl
  · rw [List.length_append, List.length_cons]
    omega

/-- What begins as a number does is read as one. -/
theorem read_number {c : Char} (h : c = '-' ∨ c.isDigit = true) :
    read (c :: cs) = (readNumber (c :: cs)).map fun (s, rest) => (.number s, rest) := by
  unfold read
  split
  iterate 10
    next heq =>
      cases heq
      exact absurd h (by decide)
  rfl

theorem spells_number (N : Numeral) (hfinite : N.decimal.toFloat.isInf = false)
    (hstop : Numeral.Stops rest) (h : Spells rest ts) :
    Spells (N.chars ++ rest) (.number (.ofList N.chars) :: ts) := by
  obtain ⟨c, cs, hchars, hc⟩ := N.chars_eq_cons
  have hread := Numeral.readNumber_chars hfinite hstop
  rw [hchars, List.cons_append] at hread ⊢
  refine .token ?_ ?_ ?_ h
  · rcases hc with rfl | hdigit
    · rfl
    · refine Bool.eq_false_iff.2 fun hblank => ?_
      simp only [isBlank, Bool.or_eq_true, beq_iff_eq] at hblank
      rcases hblank with ((rfl | rfl) | rfl) | rfl <;> exact absurd hdigit (by decide)
  · rw [read_number hc, hread]
    rfl
  · rw [List.length_append]
    omega

end Token

/-! ## Printed values -/

mutual

/-- The tokens of a value. -/
def tokens : Json → List Token
  | .null => [.null]
  | .bool b => [.bool b]
  | .number text => [.number text]
  | .string s => [.string s]
  | .array [] => [.openArray, .closeArray]
  | .array (e :: es) => .openArray :: (e.tokens ++ (restTokens es ++ [.closeArray]))
  | .object [] => [.openObject, .closeObject]
  | .object ((k, e) :: fs) =>
    .openObject :: .string k :: .colon :: (e.tokens ++ (fieldTokens fs ++ [.closeObject]))

def restTokens : List Json → List Token
  | [] => []
  | e :: es => .comma :: (e.tokens ++ restTokens es)

def fieldTokens : List (String × Json) → List Token
  | [] => []
  | (k, e) :: fs => .comma :: .string k :: .colon :: (e.tokens ++ fieldTokens fs)

end

mutual

/-- The numbers in a value are numbers of the grammar, and none overflows. -/
def Numeric : Json → Prop
  | .number text => ∃ N : Numeral, text = .ofList N.chars ∧ N.decimal.toFloat.isInf = false
  | .array es => NumericAll es
  | .object fs => NumericFields fs
  | .null | .bool _ | .string _ => True

def NumericAll : List Json → Prop
  | [] => True
  | e :: es => e.Numeric ∧ NumericAll es

def NumericFields : List (String × Json) → Prop
  | [] => True
  | (_, e) :: fs => e.Numeric ∧ NumericFields fs

end

open Token (Spells)

/-- Text that can follow a value, and its tokens. -/
structure Follows (rest : List Char) (ts : List Token) : Prop where
  stops : Numeral.Stops rest
  spells : Spells rest ts

theorem follows_newline (level : Nat) {rest : List Char} {ts : List Token} (h : Spells rest ts) :
    Follows ((newline level).toList ++ rest) ts where
  stops := by
    rw [newline, toList_pushn]
    rintro c ⟨⟩
    decide
  spells := Token.spells_newline level h

theorem follows_comma (level : Nat) {rest : List Char} {ts : List Token} (h : Spells rest ts) :
    Follows (',' :: ((newline level).toList ++ rest)) (.comma :: ts) where
  stops := by
    rintro c ⟨⟩
    decide
  spells := .token rfl rfl (le_refl _) (Token.spells_newline level h)

theorem spells_key (k : String) {rest : List Char} {ts : List Token} (h : Spells rest ts) :
    Spells ((quote k).toList ++ ':' :: ' ' :: rest) (.string k :: .colon :: ts) :=
  Token.spells_quote k (.token rfl rfl (le_refl _) (.blank rfl h))

mutual

theorem spells_print : ∀ (j : Json) (level : Nat) {rest : List Char} {ts : List Token}, j.Numeric →
    Follows rest ts → Spells ((j.print level).toList ++ rest) (j.tokens ++ ts)
  | .null, _, rest, ts, _, h => by
    have hword : Spells ('n' :: 'u' :: 'l' :: 'l' :: rest) (.null :: ts) :=
      .token rfl rfl (Nat.le_add_right _ 3) h.spells
    simpa [print, tokens] using hword
  | .bool true, _, rest, ts, _, h => by
    have hword : Spells ('t' :: 'r' :: 'u' :: 'e' :: rest) (.bool true :: ts) :=
      .token rfl rfl (Nat.le_add_right _ 3) h.spells
    simpa [print, tokens] using hword
  | .bool false, _, rest, ts, _, h => by
    have hword : Spells ('f' :: 'a' :: 'l' :: 's' :: 'e' :: rest) (.bool false :: ts) :=
      .token rfl rfl (Nat.le_add_right _ 4) h.spells
    simpa [print, tokens] using hword
  | .number text, _, _, _, hnumbers, h => by
    obtain ⟨N, rfl, hfinite⟩ := hnumbers
    rw [print, tokens, String.toList_ofList]
    exact Token.spells_number N hfinite h.stops h.spells
  | .string s, _, _, _, _, h => Token.spells_quote s h.spells
  | .array [], _, rest, ts, _, h => by
    have hwords : Spells ('[' :: ']' :: rest) (.openArray :: .closeArray :: ts) :=
      .token rfl rfl (le_refl _) (.token rfl rfl (le_refl _) h.spells)
    simpa [print, tokens] using hwords
  | .array (e :: es), level, rest, ts, hnumbers, h => by
    rw [Numeric, NumericAll] at hnumbers
    have hclose : Spells (']' :: rest) (.closeArray :: ts) := .token rfl rfl (le_refl _) h.spells
    have hrest := follows_printRest es level hnumbers.2 (follows_newline level hclose)
    have hfirst := spells_print e (level + 1) hnumbers.1 hrest
    have hopen : Spells ('[' :: ((newline (level + 1)).toList ++ _)) (.openArray :: _) :=
      .token rfl rfl (le_refl _) (Token.spells_newline (level + 1) hfirst)
    simpa [print, tokens] using hopen
  | .object [], _, rest, ts, _, h => by
    have hwords : Spells ('\x7b' :: '\x7d' :: rest) (.openObject :: .closeObject :: ts) :=
      .token rfl rfl (le_refl _) (.token rfl rfl (le_refl _) h.spells)
    simpa [print, tokens] using hwords
  | .object ((k, e) :: fs), level, rest, ts, hnumbers, h => by
    rw [Numeric, NumericFields] at hnumbers
    have hclose : Spells ('\x7d' :: rest) (.closeObject :: ts) :=
      .token rfl rfl (le_refl _) h.spells
    have hrest := follows_printFields fs level hnumbers.2 (follows_newline level hclose)
    have hfirst := spells_print e (level + 1) hnumbers.1 hrest
    have hopen : Spells ('\x7b' :: ((newline (level + 1)).toList ++ _)) (.openObject :: _) :=
      .token rfl rfl (le_refl _) (Token.spells_newline (level + 1) (spells_key k hfirst))
    simpa [print, tokens] using hopen

theorem follows_printRest : ∀ (es : List Json) (level : Nat) {rest : List Char} {ts : List Token},
    NumericAll es → Follows rest ts →
      Follows ((printRest es level).toList ++ rest) (restTokens es ++ ts)
  | [], _, _, _, _, h => by simpa [printRest, restTokens] using h
  | e :: es, level, rest, ts, hnumbers, h => by
    rw [NumericAll] at hnumbers
    have hrest := follows_printRest es level hnumbers.2 h
    have hcomma := follows_comma (level + 1) (spells_print e (level + 1) hnumbers.1 hrest)
    simpa [printRest, restTokens] using hcomma

theorem follows_printFields :
    ∀ (fs : List (String × Json)) (level : Nat) {rest : List Char} {ts : List Token},
    NumericFields fs → Follows rest ts →
      Follows ((printFields fs level).toList ++ rest) (fieldTokens fs ++ ts)
  | [], _, _, _, _, h => by simpa [printFields, fieldTokens] using h
  | (k, e) :: fs, level, rest, ts, hnumbers, h => by
    rw [NumericFields] at hnumbers
    have hrest := follows_printFields fs level hnumbers.2 h
    have hcomma :=
      follows_comma (level + 1) (spells_key k (spells_print e (level + 1) hnumbers.1 hrest))
    simpa [printFields, fieldTokens] using hcomma

end

/-! ## Values from tokens -/

/-- A value does not begin with the end of an array. -/
theorem head?_tokens (j : Json) (ts : List Token) : (j.tokens ++ ts).head? ≠ some .closeArray := by
  unfold tokens
  split <;> simp

/-- So what does is no empty array. -/
theorem readValue_openArray (j : Json) (fuel depth : Nat) (ts : List Token) :
    readValue (fuel + 1) (depth + 1) (.openArray :: (j.tokens ++ ts)) =
      readElements fuel depth [] (j.tokens ++ ts) := by
  have hhead := head?_tokens j ts
  rw [readValue]
  intro us h
  rw [h] at hhead
  exact hhead rfl

mutual

theorem readValue_tokens : ∀ (j : Json) {fuel depth : Nat} (ts : List Token),
    2 * j.tokens.length ≤ fuel →
    j.depth ≤ depth → readValue fuel depth (j.tokens ++ ts) = some (j, ts)
  | .null, fuel + 1, _, _, _, _ => by simp [tokens, readValue]
  | .bool _, fuel + 1, _, _, _, _ => by simp [tokens, readValue]
  | .number _, fuel + 1, _, _, _, _ => by simp [tokens, readValue]
  | .string _, fuel + 1, _, _, _, _ => by simp [tokens, readValue]
  | .array [], fuel + 1, depth + 1, _, _, _ => by simp [tokens, readValue]
  | .array (e :: es), fuel + 1, depth + 1, ts, hfuel, hdepth => by
    obtain ⟨he, hes⟩ := Nat.max_le.1 (Nat.le_of_succ_le_succ hdepth)
    have hfuel' : 2 * (e.tokens.length + (restTokens es).length) < fuel := by
      simp only [tokens, List.length_cons, List.length_append, List.length_nil] at hfuel
      omega
    have hread := readElements_tokens es [] ts (fun ts h => readValue_tokens e ts h he) hfuel' hes
    rw [tokens, List.cons_append, List.append_assoc, List.append_assoc, List.singleton_append,
      readValue_openArray, hread]
    rfl
  | .object [], fuel + 1, depth + 1, _, _, _ => by simp [tokens, readValue]
  | .object ((k, e) :: fs), fuel + 1, depth + 1, ts, hfuel, hdepth => by
    obtain ⟨he, hfs⟩ := Nat.max_le.1 (Nat.le_of_succ_le_succ hdepth)
    have hfuel' : 2 * (e.tokens.length + (fieldTokens fs).length) < fuel := by
      simp only [tokens, List.length_cons, List.length_append, List.length_nil] at hfuel
      omega
    have hread :=
      readFields_tokens fs (k := k) [] ts (fun ts h => readValue_tokens e ts h he) hfuel' hfs
    simp only [tokens, List.cons_append, List.append_assoc, List.nil_append, readValue, hread,
      List.reverse_nil]

theorem readElements_tokens :
    ∀ (es : List Json) {e : Json} {fuel depth : Nat} (acc : List Json) (ts : List Token),
    (∀ {fuel : Nat} (ts : List Token), 2 * e.tokens.length ≤ fuel →
      readValue fuel depth (e.tokens ++ ts) = some (e, ts)) →
    2 * (e.tokens.length + (restTokens es).length) < fuel → depthAll es ≤ depth →
      readElements fuel depth acc (e.tokens ++ (restTokens es ++ .closeArray :: ts)) =
        some (.array (acc.reverse ++ e :: es), ts)
  | [], e, fuel + 1, depth, acc, ts, he, hfuel, hdepth => by
    rw [restTokens, List.nil_append, readElements, he _ (by omega)]
    simp
  | e' :: es, e, fuel + 1, depth, acc, ts, he, hfuel, hdepth => by
    obtain ⟨he', hes⟩ := Nat.max_le.1 hdepth
    simp only [restTokens, List.length_cons, List.length_append] at hfuel
    have hfuel' : 2 * (e'.tokens.length + (restTokens es).length) < fuel := by omega
    have hread :=
      readElements_tokens es (e :: acc) ts (fun ts h => readValue_tokens e' ts h he') hfuel' hes
    rw [restTokens, List.cons_append, List.append_assoc, readElements, he _ (by omega)]
    simp [hread]

theorem readFields_tokens : ∀ (fs : List (String × Json)) {k : String} {e : Json} {fuel depth : Nat}
    (acc : List (String × Json)) (ts : List Token),
    (∀ {fuel : Nat} (ts : List Token), 2 * e.tokens.length ≤ fuel →
      readValue fuel depth (e.tokens ++ ts) = some (e, ts)) →
    2 * (e.tokens.length + (fieldTokens fs).length) < fuel → depthFields fs ≤ depth →
      readFields fuel depth acc
        (.string k :: .colon :: (e.tokens ++ (fieldTokens fs ++ .closeObject :: ts))) =
        some (.object (acc.reverse ++ (k, e) :: fs), ts)
  | [], k, e, fuel + 1, depth, acc, ts, he, hfuel, hdepth => by
    rw [fieldTokens, List.nil_append, readFields, he _ (by omega)]
    simp
  | (k', e') :: fs, k, e, fuel + 1, depth, acc, ts, he, hfuel, hdepth => by
    obtain ⟨he', hfs⟩ := Nat.max_le.1 hdepth
    simp only [fieldTokens, List.length_cons, List.length_append] at hfuel
    have hfuel' : 2 * (e'.tokens.length + (fieldTokens fs).length) < fuel := by omega
    have hread :=
      readFields_tokens fs (k := k') ((k, e) :: acc) ts (fun ts h => readValue_tokens e' ts h he')
      hfuel' hfs
    simp only [fieldTokens, List.cons_append, List.append_assoc]
    rw [readFields, he _ (by omega)]
    simp [hread]

end

/-- A printed value is read as the value. -/
theorem parse?_pretty {j : Json} (hnumbers : j.Numeric) (hdepth : j.depth ≤ maxDepth) :
    parse? j.pretty = some j := by
  have hend : Follows [] [] := ⟨nofun, .nil⟩
  have hspells := spells_print j 0 hnumbers hend
  rw [List.append_nil, List.append_nil] at hspells
  have hread := readValue_tokens j [] (Nat.le_succ (2 * j.tokens.length)) hdepth
  rw [List.append_nil] at hread
  simp [parse?, pretty, hspells.readAll, hread]

end Json

end FrameLedger
