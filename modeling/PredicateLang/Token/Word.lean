import PredicateLang.Number.Reading
import PredicateLang.Token.Lexeme

/-!
# Words and UUIDs

A word is a run of ASCII letters, digits and underscores. Three words are
reserved. The words `u` and `U` before a colon start a UUID, five groups of
hexadecimal digits of fixed lengths.
-/

namespace PredicateLang.Lexeme

/-- What a whole word means. -/
def wordKind (word : List Char) : TokenKind :=
  if word = "true".toList then .boolean true
  else if word = "false".toList then .boolean false
  else if word = "nil".toList then .nil
  else .identifier (String.ofList word)

/-- The characters of a UUID. -/
def continuesUuid (c : Char) : Bool :=
  Number.isHexDigit c || c == '-'

/-- Whether the groups between the dashes have the lengths of a UUID. -/
def hasUuidGroups (text : List Char) : Bool :=
  (text.splitOn '-').map List.length == [8, 4, 4, 4, 12]

/-- The UUID after the letter and colon that open it. -/
def uuid (opening cs : List Char) : Lexeme :=
  let digits := cs.takeWhile continuesUuid
  let afterDigits := cs.dropWhile continuesUuid
  let invalid := fun text rest =>
    malformed (.invalidUuid (String.ofList text)) (opening ++ text) rest
  if afterDigits.head?.any continuesName then
    let continues := fun c => continuesName c || c == '-'
    invalid (digits ++ afterDigits.takeWhile continues) (afterDigits.dropWhile continues)
  else if hasUuidGroups digits then ⟨.uuid (String.ofList digits), opening ++ digits, afterDigits⟩
  else invalid digits afterDigits

/-- The word or UUID at the front of a text that starts a name. -/
def word (cs : List Char) : Lexeme :=
  let run := cs.takeWhile continuesName
  let afterRun := cs.dropWhile continuesName
  if (run = ['u'] ∨ run = ['U']) ∧ afterRun.head? = some ':' then
    uuid (run ++ [':']) (afterRun.drop 1)
  else ⟨wordKind run, run, afterRun⟩

theorem uuid_append (opening cs : List Char) :
    (uuid opening cs).text ++ (uuid opening cs).rest = opening ++ cs := by
  simp only [uuid]
  split
  · simp [malformed, List.takeWhile_append_dropWhile]
  · split <;> simp [malformed, List.takeWhile_append_dropWhile]

theorem uuid_text_ne_nil {opening : List Char} (h : opening ≠ []) (cs : List Char) :
    (uuid opening cs).text ≠ [] := by
  simp only [uuid]
  split
  · simp [malformed, h]
  · split <;> simp [malformed, h]

theorem continuesName_of_startsName {c : Char} (h : startsName c = true) :
    continuesName c = true := by
  simp only [startsName, continuesName, Char.isAlphanum, Bool.or_eq_true] at *
  exact h.imp Or.inl id

theorem word_readFrom {c : Char} (h : startsName c = true) (cs : List Char) :
    (word (c :: cs)).ReadFrom (c :: cs) := by
  have hc := continuesName_of_startsName h
  have happend := List.takeWhile_append_dropWhile (p := continuesName) (l := c :: cs)
  constructor
  · simp only [word]
    split
    · rename_i hu
      rw [uuid_append, List.append_assoc]
      match hd : (c :: cs).dropWhile continuesName, hu.2 with
      | a :: rest, ha =>
        rw [hd] at happend
        simp only [List.head?_cons, Option.some.injEq] at ha
        subst ha
        simpa using happend
    · exact happend
  · intro _
    simp only [word]
    split
    · exact uuid_text_ne_nil (by simp) _
    · simp [hc]

end PredicateLang.Lexeme
