import PredicateLang.Proofs.Token.Tiling

/-!
# The token ahead

What a scanner hands out next is settled by the characters it faces, from the next
token on, and by whether an operand is expected there. Statements about one kind of
token are made of a scanner that faces its text. Every token of a source was handed
out by such a scanner.
-/

namespace PredicateLang

namespace Scanner

/-- The scanner stands in the source, and `text` is what follows the white space ahead. -/
structure Faces (s : Scanner) (source : String) (text : List Char) : Prop where
  standsIn : s.StandsIn source
  unfailed : s.failed = none
  ahead : s.rest.dropWhile Text.isBlank = text

/-- The next token is of the kind and covers `text`, and the scanner goes on with `rest`. -/
structure Takes (s : Scanner) (source : String) (kind : TokenKind) (text rest : List Char) :
    Prop where
  kind : s.scan.1.kind = kind
  covers : ∃ before, source.toList = before ++ (text ++ rest) ∧
    s.scan.1.span = ⟨Source.byteSize before, Source.byteSize text⟩
  excerpt : s.scan.1.span.excerpt? source = some (String.ofList text)
  goesOn : s.scan.2.rest = rest

section
variable {s : Scanner} {source : String} {cs text rest : List Char} {kind : TokenKind}

/-- The token is what is read off the text that the scanner faces. -/
theorem Faces.takes (h : s.Faces source cs)
    (hread : Lexeme.read s.operandExpected cs = ⟨kind, text, rest⟩) :
    s.Takes source kind text rest := by
  obtain ⟨before, hsplit⟩ := h.standsIn
  obtain ⟨hsource, hsize⟩ := Source.append_of_splitAt? hsplit
  obtain ⟨p, after, hs, hp⟩ := s.exists_piece
  have hscan : s.scan = s.advance := by simp only [scan, h.unfailed]
  have hcs : cs = p.text ++ after := by rw [← h.ahead, hs, hp.dropWhile_eq]
  rw [hcs, hp.read_eq] at hread
  cases hread
  obtain ⟨htoken, hrest, -⟩ := advance_eq hp hs
  have hat : source.toList = (before ++ p.gap) ++ (p.text ++ rest) := by
    rw [← hsource, hs, List.append_assoc]
  have hspan : s.scan.1.span = ⟨Source.byteSize (before ++ p.gap), Source.byteSize p.text⟩ := by
    rw [hscan, htoken, Piece.token, Source.byteSize_append, hsize]
  refine ⟨?_, ⟨before ++ p.gap, hat, hspan⟩, ?_, ?_⟩
  · rw [hscan, htoken]
    rfl
  · rw [hspan]
    exact Source.excerpt?_eq hat
  · rw [hscan, hrest]

/-- No white space stands in front of the text that a scanner faces. -/
theorem Faces.visible (h : s.Faces source cs) : ∀ c ∈ cs.head?, Text.isBlank c = false :=
  h.ahead ▸ head?_dropWhile_spec Text.isBlank s.rest

theorem Faces.takes_read (h : s.Faces source cs) :
    s.Takes source (Lexeme.read s.operandExpected cs).kind (Lexeme.read s.operandExpected cs).text
      (Lexeme.read s.operandExpected cs).rest :=
  h.takes rfl

/-- A token that is no end leaves a scanner that faces the rest. -/
theorem Faces.scan (h : s.Faces source cs) (hfinal : s.scan.1.kind.isFinal = false) :
    s.scan.2.Faces source (s.scan.2.rest.dropWhile Text.isBlank) := by
  refine ⟨h.standsIn.scan, ?_, rfl⟩
  have hscan : s.scan = s.advance := by simp only [Scanner.scan, h.unfailed]
  rw [hscan] at hfinal ⊢
  exact (failed_advance hfinal).trans h.unfailed

/-- A token that nothing follows ends where the source ends. -/
theorem Takes.stop_eq (h : s.Takes source kind text []) :
    s.scan.1.span.stop = Source.byteSize source.toList := by
  obtain ⟨before, hsource, hspan⟩ := h.covers
  rw [hspan, hsource, List.append_nil, Source.byteSize_append]
  rfl

/-- The token is known by where its text stands in the source. -/
theorem Takes.token_eq {before : List Char} (h : s.Takes source kind text rest)
    (hsource : source.toList = before ++ (text ++ rest)) :
    s.scan.1 = ⟨kind, ⟨Source.byteSize before, Source.byteSize text⟩⟩ := by
  obtain ⟨before', hsource', hspan⟩ := h.covers
  have hbefore : before' = before := List.append_cancel_right (hsource'.symm.trans hsource)
  calc
    s.scan.1 = ⟨s.scan.1.kind, s.scan.1.span⟩ := rfl
    _ = ⟨kind, ⟨Source.byteSize before, Source.byteSize text⟩⟩ := by rw [h.kind, hspan, hbefore]

theorem faces_start (source : String) :
    (start source).Faces source (source.toList.dropWhile Text.isBlank) :=
  ⟨⟨[], Source.splitAt?_byteSize [] source.toList⟩, rfl, rfl⟩

/-- A scanner that starts in front of a visible character faces all of the source. -/
theorem faces_start_of_visible (hvisible : ∀ c ∈ text.head?, Text.isBlank c = false) :
    (start (String.ofList text)).Faces (String.ofList text) text := by
  have hfaces := faces_start (String.ofList text)
  have hnone : text.takeWhile Text.isBlank = [] := takeWhile_eq_nil_of_stop hvisible
  have happend := List.takeWhile_append_dropWhile (p := Text.isBlank) (l := text)
  rw [hnone, List.nil_append] at happend
  rwa [String.toList_ofList, happend] at hfaces

theorem scan_mem_tokensFrom (hfailed : s.failed = none) : s.scan.1 ∈ s.tokensFrom := by
  have hscan : s.scan = s.advance := by simp only [scan, hfailed]
  rw [hscan, tokensFrom, hfailed]
  by_cases hfinal : s.advance.1.kind.isFinal = true
  · simp only [hfinal, if_true]
    exact List.mem_singleton_self _
  · simp only [hfinal, if_false, Bool.false_eq_true]
    exact List.mem_cons_self

/-- The tokens ahead of a scanner are handed out by scanners that face them. -/
theorem exists_faces_of_mem_tokensFrom {t : Token} (hstands : s.StandsIn source)
    (hfailed : s.failed = none) (ht : t ∈ s.tokensFrom) :
    ∃ s' cs, Faces s' source cs ∧ s'.scan.1 = t := by
  fun_induction tokensFrom s with
  | case1 s token h =>
    rw [hfailed] at h
    cases h
  | case2 s _ hfinal =>
    have hscan : s.scan = s.advance := by simp only [scan, hfailed]
    rw [List.mem_singleton.mp ht]
    exact ⟨s, _, ⟨hstands, hfailed, rfl⟩, by rw [hscan]⟩
  | case3 s _ hopen ih =>
    have hscan : s.scan = s.advance := by simp only [scan, hfailed]
    rcases List.mem_cons.mp ht with rfl | ht
    · exact ⟨s, _, ⟨hstands, hfailed, rfl⟩, by rw [hscan]⟩
    · have hfaces : s.Faces source (s.rest.dropWhile Text.isBlank) := ⟨hstands, hfailed, rfl⟩
      have hnext := hfaces.scan (by rw [hscan]; exact Bool.eq_false_iff.mpr hopen)
      rw [hscan] at hnext
      exact ih hnext.standsIn hnext.unfailed ht

end
end Scanner

/-- Every token of a source was handed out by a scanner that stood in front of it. -/
theorem exists_faces_of_mem {source : String} {t : Token} (ht : t ∈ tokens source) :
    ∃ s cs, Scanner.Faces s source cs ∧ s.scan.1 = t :=
  Scanner.exists_faces_of_mem_tokensFrom ⟨[], Source.splitAt?_byteSize [] source.toList⟩ rfl ht

end PredicateLang
