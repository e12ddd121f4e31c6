import PredicateLang.Proofs.Token.Number
import PredicateLang.Proofs.Token.Quotation
import PredicateLang.Proofs.Token.Word

/-!
# Tokens on their own

The text of a token is read as the same token when it stands alone. Every rule looks past
the token it reads, and this must not tell in the result: where a run of characters ends,
the end of the text stops it just as well, and an error is one of the characters that have
been read. A scanner that starts anew expects an operand, which makes no difference to a
token that was read where none was expected.
-/

namespace PredicateLang

theorem Escape.NoCharacter.alone {count : Nat} {digits rest : List Char}
    (h : NoCharacter count digits rest) : NoCharacter count digits [] := by
  cases h with
  | tooFew hlt => exact .tooFew hlt fun c hc => by cases hc
  | surrogate hlength hlow hhigh => exact .surrogate hlength hlow hhigh
  | beyond hlength hhigh => exact .beyond hlength hhigh

/-- A fault is one wherever the text ends behind it. -/
theorem Quotation.Fault.alone {e : ScanError} {fault rest : List Char} (h : Fault e fault rest) :
    Fault e fault [] := by
  cases h with
  | ended => exact .ended
  | endedInEscape => exact .endedInEscape
  | letter hletter => exact .letter hletter
  | short hdigits hnone => exact .short hdigits hnone.alone
  | long hdigits hnone => exact .long hdigits hnone.alone

theorem Symbol.read?_singleton {c : Char} {cs : List Char} (h : read? (c :: cs) = none) :
    read? [c] = none := by
  unfold read? at h ⊢
  rw [List.find?_eq_none] at h ⊢
  intro s hs hleads
  apply h s hs
  rw [List.isPrefixOf_iff_prefix] at hleads ⊢
  exact hleads.trans ⟨cs, rfl⟩

namespace Lexeme

theorem quotation_alone (cs : List Char) : ∃ body, (quotation cs).text = '"' :: body ∧
    quotation body = { quotation cs with rest := [] } := by
  obtain ⟨content, text, hspells, ⟨rest, rfl⟩ | ⟨e, fault, rest, hfault, rfl⟩⟩ :=
    Quotation.exists_spellsAll_append cs
  · refine ⟨text ++ ['"'], ?_, ?_⟩
    · rw [quotation_of_spellsAll hspells]
    · rw [quotation_of_spellsAll hspells, quotation_of_spellsAll hspells]
  · refine ⟨text ++ fault, ?_, ?_⟩
    · rw [quotation_of_fault hspells hfault]
    · have halone := quotation_of_fault hspells hfault.alone
      rw [List.append_nil] at halone
      rw [quotation_of_fault hspells hfault, halone]

/-- What is read after a colon is read alike when nothing follows it. -/
theorem uuid_alone (opening cs : List Char) : ∃ text, (uuid opening cs).text = opening ++ text ∧
    uuid opening text = { uuid opening cs with rest := [] } := by
  obtain ⟨digits, rest, rfl, hrun⟩ : ∃ digits rest, cs = digits ++ rest ∧
      IsRun continuesUuid digits rest :=
    ⟨_, _, List.takeWhile_append_dropWhile.symm, isRun_takeWhile continuesUuid cs⟩
  cases hname : rest.head?.any continuesName with
  | true =>
    -- the name is part of the text, so it follows the digits there too
    have hall := takeWhile_spec continuesUuidText rest
    have hhead : (rest.takeWhile continuesUuidText).head? = rest.head? := by
      cases rest with
      | nil => rfl
      | cons c rest =>
        have hc : continuesUuidText c = true := Bool.or_eq_true_iff.mpr (.inl hname)
        rw [List.takeWhile_cons_of_pos hc]
        rfl
    have htext : IsRun continuesUuid digits (rest.takeWhile continuesUuidText) :=
      ⟨hrun.all, hhead ▸ hrun.stop⟩
    refine ⟨digits ++ rest.takeWhile continuesUuidText, ?_, ?_⟩
    · rw [uuid_of_name hrun hname, malformed]
    · rw [uuid_of_name hrun hname, uuid_of_name htext (hhead ▸ hname),
        List.takeWhile_eq_self_iff.mpr hall, List.dropWhile_eq_nil_iff.mpr hall]
      rfl
  | false =>
    have hstop := any_head?_eq_false_iff.mp hname
    have halone : IsRun continuesUuid digits [] := ⟨hrun.all, fun c hc => by cases hc⟩
    have hagain := @uuid_of_stop _ _ opening halone fun c hc => by cases hc
    rw [List.append_nil] at hagain
    refine ⟨digits, ?_, ?_⟩
    · rw [uuid_of_stop hrun hstop]
    · rw [uuid_of_stop hrun hstop, hagain]

/-- A word is read alike when nothing follows it. -/
theorem word_alone (cs : List Char) : word (word cs).text = { word cs with rest := [] } := by
  have hrun := isRun_takeWhile continuesName cs
  have hword := word_of_isRun hrun
  rw [List.takeWhile_append_dropWhile] at hword
  rw [hword]
  by_cases hopening : (cs.takeWhile continuesName = ['u'] ∨ cs.takeWhile continuesName = ['U']) ∧
      (cs.dropWhile continuesName).head? = some ':'
  · obtain ⟨text, htext, halone⟩ :=
      uuid_alone (cs.takeWhile continuesName ++ [':']) ((cs.dropWhile continuesName).drop 1)
    have hcolon : IsRun continuesName (cs.takeWhile continuesName) (':' :: text) := by
      refine ⟨hrun.all, ?_⟩
      rintro _ ⟨⟩
      decide
    rw [if_pos hopening, htext, ← halone, List.append_assoc]
    have hagain := word_of_isRun hcolon
    rw [if_pos ⟨hopening.1, rfl⟩] at hagain
    exact hagain
  · have hshort : IsRun continuesName (cs.takeWhile continuesName) [] :=
      ⟨hrun.all, fun c hc => by cases hc⟩
    have hagain := word_of_isRun hshort
    rw [List.append_nil, if_neg (fun h => by cases h.2)] at hagain
    rw [if_neg hopening, hagain]

/-- A symbol is read alike on its own. A sign is, because no digit follows it there. -/
theorem symbol_alone {operandExpected : Bool} {c : Char} {cs : List Char}
    (hnumber : startsNumber operandExpected c cs = false) (hquote : c ≠ '"')
    (hname : startsName c = false) :
    read true (symbol c cs).text = { symbol c cs with rest := [] } := by
  unfold symbol
  cases hread : Symbol.read? (c :: cs) with
  | some s => cases s <;> rfl
  | none =>
    have hdigit := (Bool.or_eq_false_iff.mp hnumber).1
    have halone : startsNumber true c [] = false := by
      rw [startsNumber, hdigit]
      simp only [List.head?_nil, Option.any_none, Bool.and_false, Bool.or_false]
    simp only [malformed, read, halone, hname, if_neg hquote, Bool.false_eq_true, if_false, symbol,
      Symbol.read?_singleton hread]

theorem startsNumber_true {operandExpected : Bool} {c : Char} {cs : List Char}
    (h : startsNumber operandExpected c cs = true) : startsNumber true c cs = true := by
  cases operandExpected with
  | true => exact h
  | false =>
    simp only [startsNumber, Bool.false_and, Bool.or_false] at h
    rw [startsNumber, h, Bool.true_or]

/-- The text of a token on its own is read as that token, wherever it was read. -/
theorem read_alone (operandExpected : Bool) (cs : List Char) :
    read true (read operandExpected cs).text = { read operandExpected cs with rest := [] } := by
  cases cs with
  | nil => rfl
  | cons c cs =>
    rcases read_cases operandExpected c cs with
      ⟨hstart, heq⟩ | ⟨rfl, heq⟩ | ⟨hstart, heq⟩ | ⟨hnumber, hquote, hname, heq⟩
    · obtain ⟨tail, htext⟩ := (number_readFrom hstart).exists_text
      have hagain := startsNumber_true (startsNumber_stays hstart htext [])
      rw [List.append_nil] at hagain
      rw [heq, ← number_alone hstart, htext]
      exact if_pos hagain
    · obtain ⟨body, htext, halone⟩ := quotation_alone cs
      rw [heq, htext, read_quote, halone]
    · obtain ⟨tail, htext⟩ := (word_readFrom hstart cs).exists_text
      rw [heq, ← word_alone, htext, read_name hstart]
    · rw [heq, symbol_alone hnumber hquote hname]

end Lexeme

/-- The excerpt of a token, scanned from its start, is one token of the same kind and with the same
payload or error. The token covers the excerpt, and unless it is malformed the input ends after
it. -/
theorem excerpts_scan {source : String} {t : Token} (ht : t ∈ tokens source)
    (hkind : t.kind ≠ .endOfInput) :
    ∃ excerpt, t.span.excerpt? source = some excerpt ∧
      (Scanner.start excerpt).scan.1 = ⟨t.kind, ⟨0, Source.byteSize excerpt.toList⟩⟩ ∧
      ((∀ e, t.kind ≠ .malformed e) → (Scanner.start excerpt).scan.2.scan.1 =
        ⟨.endOfInput, ⟨Source.byteSize excerpt.toList, 0⟩⟩) := by
  obtain ⟨s, cs, hs, rfl⟩ := exists_faces_of_mem ht
  have htakes := hs.takes_read
  obtain ⟨c, cs, rfl⟩ : ∃ c tail, cs = c :: tail := by
    cases cs with
    | nil => exact absurd htakes.kind hkind
    | cons c cs => exact ⟨c, cs, rfl⟩
  obtain ⟨tail, htext⟩ := (Lexeme.read_readFrom s.operandExpected (c :: cs)).exists_text
  have hvisible : ∀ d ∈ (Lexeme.read s.operandExpected (c :: cs)).text.head?,
      Text.isBlank d = false := by
    rw [htext]
    exact hs.visible
  generalize hexcerpt : String.ofList (Lexeme.read s.operandExpected (c :: cs)).text = excerpt
  have hlist : excerpt.toList = (Lexeme.read s.operandExpected (c :: cs)).text := by
    rw [← hexcerpt, String.toList_ofList]
  have hfaces := Scanner.faces_start_of_visible hvisible
  rw [hexcerpt] at hfaces
  have hfirst := hfaces.takes (Lexeme.read_alone s.operandExpected (c :: cs))
  have hwhole : excerpt.toList =
      [] ++ ((Lexeme.read s.operandExpected (c :: cs)).text ++ []) := by
    rw [List.append_nil, List.nil_append, hlist]
  refine ⟨excerpt, hexcerpt ▸ htakes.excerpt, ?_, fun hwell => ?_⟩
  · rw [hfirst.token_eq hwhole, htakes.kind, hlist]
    rfl
  · have hfinal : (Lexeme.read s.operandExpected (c :: cs)).kind.isFinal = false := by
      rw [← htakes.kind]
      exact TokenKind.isFinal_eq_false hkind hwell
    have hnext := hfaces.scan (by rw [hfirst.kind]; exact hfinal)
    rw [hfirst.goesOn] at hnext
    have hlast : Scanner.Takes _ excerpt .endOfInput [] [] := hnext.takes rfl
    have hend : excerpt.toList = excerpt.toList ++ ([] ++ []) := by
      rw [List.append_nil, List.append_nil]
    rw [hlast.token_eq hend]
    rfl

/-- A malformed UUID, scanned with the letter that makes it malformed, and a name. -/
theorem excerpts_scan_invalidUuid :
    (Scanner.start "u:12-x+").scan.1 ∈ tokens "u:12-x+" ∧
    (Scanner.start "u:12-x").scan.1 = ⟨.malformed (.invalidUuid "12-x"), ⟨0, 6⟩⟩ ∧
    (Scanner.start "u+1").scan.1 ∈ tokens "u+1" ∧
    (Scanner.start "u").scan.2.scan.1 = ⟨.endOfInput, ⟨1, 0⟩⟩ := by
  have huuid : (Scanner.start "u:12-x+").scan.1 ∈ tokens "u:12-x+" :=
    Scanner.scan_mem_tokensFrom rfl
  have hkind : (Scanner.start "u:12-x+").scan.1.kind = .malformed (.invalidUuid "12-x") := rfl
  have hname : (Scanner.start "u+1").scan.1 ∈ tokens "u+1" := Scanner.scan_mem_tokensFrom rfl
  have hkind' : (Scanner.start "u+1").scan.1.kind = .identifier "u" := rfl
  obtain ⟨excerpt, hexcerpt, hfirst, -⟩ := excerpts_scan huuid (by rw [hkind]; nofun)
  obtain ⟨excerpt', hexcerpt', -, hend⟩ := excerpts_scan hname (by rw [hkind']; nofun)
  have hcovered : (Scanner.start "u:12-x+").scan.1.span.excerpt? "u:12-x+" = some "u:12-x" := rfl
  have hcovered' : (Scanner.start "u+1").scan.1.span.excerpt? "u+1" = some "u" := rfl
  obtain rfl := Option.some.inj (hexcerpt.symm.trans hcovered)
  obtain rfl := Option.some.inj (hexcerpt'.symm.trans hcovered')
  exact ⟨huuid, hfirst, hname, hend (by rw [hkind']; nofun)⟩

end PredicateLang
