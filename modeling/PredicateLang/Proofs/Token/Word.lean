import PredicateLang.Proofs.Token.Facing
import PredicateLang.Proofs.Token.Phrase

/-!
# Words and UUIDs exactly

A word goes as far as letters, digits and underscores do. Only the words `u` and `U` can
be more than a word: before a colon they open a UUID, whose digits are told apart from
what may not follow them. The groups of a UUID are stated here by their digits and
dashes, while the reader looks at the lengths between dashes only.
-/

namespace PredicateLang.Lexeme

/-- What a word means. Three words are reserved, and every other word is a name. -/
inductive WordMeans : List Char → TokenKind → Prop
  | isTrue : WordMeans ['t', 'r', 'u', 'e'] (.boolean true)
  | isFalse : WordMeans ['f', 'a', 'l', 's', 'e'] (.boolean false)
  | isNil : WordMeans ['n', 'i', 'l'] .nil
  | name {word} : word ≠ ['t', 'r', 'u', 'e'] → word ≠ ['f', 'a', 'l', 's', 'e'] →
      word ≠ ['n', 'i', 'l'] → WordMeans word (.identifier (String.ofList word))

/-- Groups of 8, 4, 4, 4 and 12 hexadecimal digits with single dashes between them. -/
def IsUuid (text : List Char) : Prop :=
  ∃ groups : List (List Char), groups.map List.length = [8, 4, 4, 4, 12] ∧
    (∀ group ∈ groups, ∀ d ∈ group, Number.isHexDigit d = true) ∧
    text = ['-'].intercalate groups

/-- The characters that are scanned after the colon of a UUID, well formed or not. -/
def continuesUuidText (c : Char) : Bool :=
  continuesName c || c == '-'

theorem wordMeans_wordKind (word : List Char) : WordMeans word (wordKind word) := by
  unfold wordKind
  split
  · rename_i h
    exact h ▸ .isTrue
  · split
    · rename_i h
      exact h ▸ .isFalse
    · split
      · rename_i h
        exact h ▸ .isNil
      · exact .name ‹_› ‹_› ‹_›

theorem isHexDigit_dash : Number.isHexDigit '-' = false := by decide

/-- The pieces between separators hold the other characters of the text. -/
theorem of_mem_splitOn {α : Type} [BEq α] [LawfulBEq α] {x : α} {cs group : List α}
    (h : group ∈ cs.splitOn x) : ∀ c ∈ group, c ∈ cs ∧ c ≠ x := by
  induction cs generalizing group with
  | nil =>
    rw [List.splitOn_nil, List.mem_singleton] at h
    subst h
    intro c hc
    cases hc
  | cons d cs ih =>
    rw [List.splitOn_cons_eq_if_modifyHead] at h
    by_cases hd : (d == x) = true
    · rw [if_pos hd] at h
      rcases List.mem_cons.mp h with rfl | h
      · intro c hc
        cases hc
      · exact fun c hc => ⟨List.mem_cons_of_mem d (ih h c hc).1, (ih h c hc).2⟩
    · rw [if_neg hd] at h
      obtain ⟨first, more, heq⟩ := List.exists_cons_of_ne_nil (List.splitOn_ne_nil x cs)
      rw [heq] at h ih
      rcases List.mem_cons.mp h with rfl | h
      · intro c hc
        rcases List.mem_cons.mp hc with rfl | hc
        · exact ⟨List.mem_cons_self, fun heq => hd (beq_iff_eq.mpr heq)⟩
        · obtain ⟨hmem, hne⟩ := ih List.mem_cons_self c hc
          exact ⟨List.mem_cons_of_mem d hmem, hne⟩
      · intro c hc
        obtain ⟨hmem, hne⟩ := ih (List.mem_cons_of_mem first h) c hc
        exact ⟨List.mem_cons_of_mem d hmem, hne⟩

theorem hasUuidGroups_iff {text : List Char} (h : ∀ c ∈ text, continuesUuid c = true) :
    hasUuidGroups text = true ↔ IsUuid text := by
  rw [hasUuidGroups, beq_iff_eq]
  constructor
  · intro hlengths
    refine ⟨_, hlengths, ?_, (List.intercalate_splitOn '-').symm⟩
    intro group hgroup d hd
    obtain ⟨hmem, hne⟩ := of_mem_splitOn hgroup d hd
    have hd := h d hmem
    rw [continuesUuid, beq_eq_false_iff_ne.mpr hne, Bool.or_false] at hd
    exact hd
  · rintro ⟨groups, hlengths, hdigits, rfl⟩
    have hne : groups ≠ [] := by
      rintro rfl
      cases hlengths
    have hdash : ∀ group ∈ groups, '-' ∉ group := by
      intro group hgroup hmem
      have hdigit := hdigits group hgroup '-' hmem
      rw [isHexDigit_dash] at hdigit
      cases hdigit
    rw [List.splitOn_intercalate '-' hdash hne, hlengths]

section
variable {digits run rest opening cs : List Char} {operandExpected : Bool}

/-- A name that follows the digits is scanned as part of the text. -/
theorem uuid_of_name (hrun : IsRun continuesUuid digits rest)
    (hname : rest.head?.any continuesName = true) : uuid opening (digits ++ rest) =
      malformed (.invalidUuid (String.ofList (digits ++ rest.takeWhile continuesUuidText)))
        (opening ++ (digits ++ rest.takeWhile continuesUuidText))
        (rest.dropWhile continuesUuidText) := by
  simp only [uuid, hrun.takeWhile_eq, hrun.dropWhile_eq, if_pos hname]
  rfl

theorem uuid_of_stop (hrun : IsRun continuesUuid digits rest)
    (hstop : ∀ c ∈ rest.head?, continuesName c = false) : uuid opening (digits ++ rest) =
      ⟨if hasUuidGroups digits then .uuid (String.ofList digits)
        else .malformed (.invalidUuid (String.ofList digits)), opening ++ digits, rest⟩ := by
  have hname : ¬ rest.head?.any continuesName = true := by
    rw [any_head?_eq_false_iff.mpr hstop]
    decide
  simp only [uuid, hrun.takeWhile_eq, hrun.dropWhile_eq, if_neg hname]
  split <;> rfl

theorem uuid_of_isUuid (hrun : IsRun continuesUuid digits rest) (h : IsUuid digits)
    (hstop : ∀ c ∈ rest.head?, continuesName c = false) :
    uuid opening (digits ++ rest) =
      ⟨.uuid (String.ofList digits), opening ++ digits, rest⟩ := by
  rw [uuid_of_stop hrun hstop, if_pos ((hasUuidGroups_iff hrun.all).mpr h)]

theorem continuesUuidText_of_continuesUuid {c : Char} (h : continuesUuid c = true) :
    continuesUuidText c = true := by
  rcases Bool.or_eq_true_iff.mp h with hhex | hdash
  · exact Bool.or_eq_true_iff.mpr (.inl (continuesName_of_isHexDigit hhex))
  · exact Bool.or_eq_true_iff.mpr (.inr hdash)

/-- What is no UUID is malformed, together with the letters that follow it. -/
theorem uuid_of_not_isUuid (hrun : IsRun continuesUuid digits rest)
    (h : ¬ (IsUuid digits ∧ ∀ c ∈ rest.head?, continuesName c = false)) :
    ∃ text after, digits ++ rest = text ++ after ∧ IsRun continuesUuidText text after ∧
      uuid opening (digits ++ rest) =
        ⟨.malformed (.invalidUuid (String.ofList text)), opening ++ text, after⟩ := by
  have hdigits : ∀ c ∈ digits, continuesUuidText c = true :=
    fun c hc => continuesUuidText_of_continuesUuid (hrun.all c hc)
  by_cases hname : rest.head?.any continuesName = true
  · refine ⟨_, _, ?_, ⟨?_, head?_dropWhile_spec _ _⟩, uuid_of_name hrun hname⟩
    · rw [List.append_assoc, List.takeWhile_append_dropWhile]
    · intro c hc
      rcases List.mem_append.mp hc with hc | hc
      · exact hdigits c hc
      · exact takeWhile_spec _ _ c hc
  · have hstop := any_head?_eq_false_iff.mp (Bool.eq_false_iff.mpr hname)
    have hgroups : ¬ hasUuidGroups digits = true := by
      rw [hasUuidGroups_iff hrun.all]
      exact fun huuid => h ⟨huuid, hstop⟩
    refine ⟨digits, rest, rfl, ⟨hdigits, ?_⟩, ?_⟩
    · intro c hc
      have hdash := (Bool.or_eq_false_iff.mp (hrun.stop c hc)).2
      rw [continuesUuidText, hstop c hc, hdash, Bool.or_false]
    · rw [uuid_of_stop hrun hstop, if_neg hgroups]

/-- Nothing else is read as a UUID. -/
theorem isUuid_of_kind (hrun : IsRun continuesUuid digits rest) {text : String}
    (hkind : (uuid opening (digits ++ rest)).kind = .uuid text) :
    IsUuid digits ∧ ∀ c ∈ rest.head?, continuesName c = false := by
  by_contra hnot
  obtain ⟨_, _, -, -, heq⟩ := @uuid_of_not_isUuid _ _ opening hrun hnot
  rw [heq] at hkind
  cases hkind

theorem word_of_isRun (hrun : IsRun continuesName run rest) : word (run ++ rest) =
    if (run = ['u'] ∨ run = ['U']) ∧ rest.head? = some ':' then uuid (run ++ [':']) (rest.drop 1)
    else ⟨wordKind run, run, rest⟩ := by
  simp only [word, hrun.takeWhile_eq, hrun.dropWhile_eq]

/-- A word is read wherever it starts, whether or not an operand is expected. -/
theorem read_of_isRun (hstart : run.head?.any startsName = true)
    (hrun : IsRun continuesName run rest) : read operandExpected (run ++ rest) =
      if (run = ['u'] ∨ run = ['U']) ∧ rest.head? = some ':' then uuid (run ++ [':']) (rest.drop 1)
      else ⟨wordKind run, run, rest⟩ := by
  rw [← word_of_isRun hrun]
  cases run with
  | nil => cases hstart
  | cons c run => exact read_name hstart operandExpected (run ++ rest)

theorem exists_run_of_isWord (h : (read operandExpected cs).kind.isWord = true) :
    ∃ run rest, cs = run ++ rest ∧ run.head?.any startsName = true ∧
      IsRun continuesName run rest := by
  obtain ⟨c, tail, rfl, hc, -⟩ := read_of_isWord h
  refine ⟨(c :: tail).takeWhile continuesName, (c :: tail).dropWhile continuesName,
    List.takeWhile_append_dropWhile.symm, ?_, isRun_takeWhile _ _⟩
  rw [List.takeWhile_cons_of_pos (continuesName_of_startsName hc)]
  exact hc

/-- Names are not reserved. -/
theorem isName_of_identifier {name : String}
    (h : (read operandExpected cs).kind = .identifier name) :
    IsName name ∧ (read operandExpected cs).text = name.toList := by
  obtain ⟨run, rest, rfl, hstart, hrun⟩ := exists_run_of_isWord (by rw [h]; rfl)
  rw [read_of_isRun hstart hrun] at h ⊢
  split at h
  · have hkind := uuid_kind (run ++ [':']) (rest.drop 1)
    rcases hkind with ⟨_, hk⟩ | ⟨_, hk⟩ <;> rw [hk] at h <;> cases h
  · rename_i hopening
    have hmeans := wordMeans_wordKind run
    simp only at h
    rw [h] at hmeans
    rw [if_neg hopening]
    cases hmeans with
    | name htrue hfalse hnil =>
      refine ⟨⟨?_, ?_, ?_, ?_⟩, (String.toList_ofList).symm⟩
      · cases run with
        | nil => cases hstart
        | cons c run =>
          exact ⟨c, run, String.toList_ofList, hstart, (List.forall_mem_cons.mp hrun.all).2⟩
      all_goals
        rw [Ne, ← String.toList_inj, String.toList_ofList]
        assumption

/-- A UUID is written after the letter u and a colon. -/
theorem isUuid_of_uuid {digits : String} (h : (read operandExpected cs).kind = .uuid digits) :
    IsUuid digits.toList ∧ ∃ letter, (letter = 'u' ∨ letter = 'U') ∧
      (read operandExpected cs).text = letter :: ':' :: digits.toList := by
  obtain ⟨run, rest, rfl, hstart, hrun⟩ := exists_run_of_isWord (by rw [h]; rfl)
  rw [read_of_isRun hstart hrun] at h ⊢
  split at h
  · rename_i hopening
    rw [if_pos hopening]
    have hdigits := isRun_takeWhile continuesUuid (rest.drop 1)
    rw [← @List.takeWhile_append_dropWhile _ continuesUuid (rest.drop 1)] at h ⊢
    obtain ⟨huuid, hstop⟩ := isUuid_of_kind hdigits h
    rw [uuid_of_isUuid hdigits huuid hstop] at h ⊢
    cases h
    rw [String.toList_ofList]
    refine ⟨huuid, ?_⟩
    rcases hopening.1 with rfl | rfl
    · exact ⟨'u', .inl rfl, rfl⟩
    · exact ⟨'U', .inr rfl, rfl⟩
  · rcases wordKind_cases run with ⟨_, hk⟩ | hk | hk <;> simp only [hk] at h <;> cases h

end
end PredicateLang.Lexeme

namespace PredicateLang

open Lexeme

/-- The words of a source are the longest runs of letters, digits and underscores. The runs `u` and
`U` before a colon open a UUID, which is well formed exactly if the digits and dashes after the
colon form one and no name goes on there. Every other run is the token that the word means. So
names are not reserved, and what a UUID stands for is its text without letter and colon. -/
theorem words_split (source : String) :
    (∀ (s : Scanner) (run rest : List Char), s.Faces source (run ++ rest) →
      run.head?.any startsName = true → IsRun continuesName run rest →
      (∀ digits after, (run = ['u'] ∨ run = ['U']) → rest = ':' :: (digits ++ after) →
        IsRun continuesUuid digits after →
        (s.Takes source (.uuid (String.ofList digits)) (run ++ ':' :: digits) after ↔
          IsUuid digits ∧ ∀ c ∈ after.head?, continuesName c = false) ∧
        (¬ (IsUuid digits ∧ ∀ c ∈ after.head?, continuesName c = false) →
          ∃ text rest', digits ++ after = text ++ rest' ∧ IsRun continuesUuidText text rest' ∧
            s.Takes source (.malformed (.invalidUuid (String.ofList text)))
              (run ++ ':' :: text) rest')) ∧
      (¬ ((run = ['u'] ∨ run = ['U']) ∧ rest.head? = some ':') →
        ∃ kind, WordMeans run kind ∧ s.Takes source kind run rest)) ∧
    ∀ t ∈ tokens source,
      (∀ name, t.kind = .identifier name → IsName name ∧ t.span.excerpt? source = some name) ∧
      ∀ digits, t.kind = .uuid digits → IsUuid digits.toList ∧
        ∃ letter, (letter = 'u' ∨ letter = 'U') ∧
          t.span.excerpt? source = some (String.ofList (letter :: ':' :: digits.toList)) := by
  constructor
  · intro s run rest hs hstart hrun
    have hread := @read_of_isRun run rest s.operandExpected hstart hrun
    constructor
    · rintro digits after hu rfl hdigits
      rw [if_pos ⟨hu, rfl⟩] at hread
      rw [List.drop_one, List.tail_cons] at hread
      have htext : ∀ cs, run ++ [':'] ++ cs = run ++ ':' :: cs := fun cs => by simp
      refine ⟨⟨fun htakes => ?_, fun ⟨huuid, hstop⟩ => hs.takes ?_⟩, fun hnot => ?_⟩
      · have hkind := hs.takes_read.kind
        rw [htakes.kind, hread] at hkind
        exact isUuid_of_kind hdigits hkind.symm
      · rw [hread, uuid_of_isUuid hdigits huuid hstop, htext]
      · obtain ⟨text, rest', happend, hrun', heq⟩ := uuid_of_not_isUuid hdigits hnot
        refine ⟨text, rest', happend, hrun', hs.takes ?_⟩
        rw [hread, heq, htext]
    · intro hopening
      rw [if_neg hopening] at hread
      exact ⟨_, wordMeans_wordKind run, hs.takes hread⟩
  · intro t ht
    obtain ⟨s, cs, hs, rfl⟩ := exists_faces_of_mem ht
    have htakes := hs.takes_read
    constructor
    · intro name hkind
      rw [htakes.kind] at hkind
      obtain ⟨hname, htext⟩ := isName_of_identifier hkind
      exact ⟨hname, by rw [htakes.excerpt, htext, String.ofList_toList]⟩
    · intro digits hkind
      rw [htakes.kind] at hkind
      obtain ⟨huuid, letter, hletter, htext⟩ := isUuid_of_uuid hkind
      exact ⟨huuid, letter, hletter, by rw [htakes.excerpt, htext]⟩

/-- A UUID, a malformed one with the letter that ends its digits, and a name that starts with a
reserved word. -/
theorem words_split_uuid :
    (Scanner.start "u:01234567-89ab-cdef-0123-456789ABCDEF ").Takes
        "u:01234567-89ab-cdef-0123-456789ABCDEF " (.uuid "01234567-89ab-cdef-0123-456789ABCDEF")
        "u:01234567-89ab-cdef-0123-456789ABCDEF".toList [' '] ∧
    (∃ text rest, "12-x+".toList = text ++ rest ∧ IsRun continuesUuidText text rest ∧
      (Scanner.start "U:12-x+").Takes "U:12-x+" (.malformed (.invalidUuid (String.ofList text)))
        ("U:".toList ++ text) rest) ∧
    (∃ kind, WordMeans "nils".toList kind ∧
      (Scanner.start "nils").Takes "nils" kind "nils".toList []) ∧
    ∃ t ∈ tokens "nils", t.kind = .identifier "nils" ∧ IsName "nils" ∧
      t.span.excerpt? "nils" = some "nils" := by
  have hdigits : (["01234567", "89ab", "cdef", "0123", "456789ABCDEF"].map String.toList).all
      (·.all Number.isHexDigit) = true := by decide
  have huuid : IsUuid "01234567-89ab-cdef-0123-456789ABCDEF".toList :=
    ⟨_, by decide,
      fun group hgroup => List.all_eq_true.mp (List.all_eq_true.mp hdigits group hgroup),
      by decide⟩
  have hnils : (Scanner.start "nils").scan.1 ∈ tokens "nils" := Scanner.scan_mem_tokensFrom rfl
  have hname : (Scanner.start "nils").scan.1.kind = .identifier "nils" := rfl
  refine ⟨?_, ?_, ?_, _, hnils, hname, ((words_split "nils").2 _ hnils).1 _ hname⟩
  · exact (((words_split _).1 _ ['u'] _ (Scanner.faces_start _) rfl (by decide)).1 _ [' ']
      (.inl rfl) rfl (by decide)).1.mpr ⟨huuid, any_head?_eq_false_iff.mp (by decide)⟩
  · exact (((words_split _).1 _ ['U'] _ (Scanner.faces_start _) rfl (by decide)).1 "12-".toList
      "x+".toList (.inr rfl) rfl (by decide)).2
      fun ⟨_, hstop⟩ => absurd (hstop 'x' rfl) (by decide)
  · exact ((words_split _).1 _ "nils".toList [] (Scanner.faces_start _) rfl (by decide)).2
      (by decide)

end PredicateLang
