import PredicateLang.Proofs.Grammar.Calls

/-!
# Parse errors are exact

The token of a parse error is the first one that makes the tokens of the source
the beginning of no sentence. Up to it they are one, because what a parse has taken
where it halts can be completed. With it they are none, because a parse of such a
sentence would come to the same place and be rejected there. A path that is no member
is reported at the token after its dot, up to which all is well.
-/

namespace PredicateLang

/-- The tokens are the beginning of a sentence, as far as their kinds tell. -/
def Viable (ts : List Token) : Prop :=
  ∃ sentence e, Sentence sentence e ∧ ts.map Token.kind <+: sentence.map Token.kind

/-- A token of a kind, wherever it stands. -/
def TokenKind.somewhere (k : TokenKind) : Token :=
  ⟨k, ⟨0, 0⟩⟩

theorem map_kind_somewhere (ks : List TokenKind) :
    (ks.map TokenKind.somewhere).map Token.kind = ks := by
  rw [List.map_map]
  exact List.map_id _

theorem viable_of_completable {ts : List Token}
    (h : Rule.expression.Completable (ts.map Token.kind)) : Viable ts := by
  obtain ⟨more, e, hd, _⟩ := h
  refine ⟨(ts ++ more.map TokenKind.somewhere) ++ [TokenKind.somewhere .endOfInput], e,
    ⟨_, _, rfl, rfl, ?_⟩, ?_⟩
  · rwa [List.map_append, map_kind_somewhere]
  · simp only [List.map_append, List.append_assoc]
    exact List.prefix_append _ _

/-- A parse of a sentence that begins with these tokens would have to end before the last one. -/
theorem not_viable_of_accepts {ts : List Token} {t : Token}
    (h : ∀ rest : Stream' Token, rest.head.kind = t.kind → ∀ b e s',
      Accepts b .expression (ts ++ₛ rest) e s' → s'.head.kind ≠ .endOfInput) :
    ¬ Viable (ts ++ [t]) := by
  rintro ⟨_, e, ⟨us, last, rfl, hlast, hd⟩, more, hmore⟩
  -- The sentence, with its tokens at the front exchanged for the given ones.
  let sentence := ts ++ t :: more.map TokenKind.somewhere
  have hkinds : sentence.map Token.kind = us.map Token.kind ++ [.endOfInput] := by
    rw [← hlast, ← List.map_singleton, ← List.map_append, ← hmore]
    simp only [sentence, List.map_append, List.map_cons, map_kind_somewhere, List.map_nil,
      List.append_assoc, List.singleton_append]
  obtain ⟨vs, ws, hsplit, hvs, hws⟩ := List.map_eq_append_iff.mp hkinds
  obtain ⟨l, rfl, hl⟩ := List.map_eq_singleton_iff.mp hws
  obtain ⟨b, ha⟩ := hd.accepts vs (Stream'.const l) hvs
    (TokenKind.expression_lt_reach (.inl hl))
  have hstream : vs ++ₛ Stream'.const l =
      ts ++ₛ ((t :: more.map TokenKind.somewhere) ++ₛ Stream'.const l) := by
    rw [← Stream'.append_append_stream]
    change _ = sentence ++ₛ Stream'.const l
    rw [hsplit, Stream'.append_append_stream]
    exact congrArg _ (Stream'.const_eq l)
  rw [hstream] at ha
  exact h _ rfl b e _ ha hl

section
variable {source : String} {used : List Token} {rest : Stream' Token}

/-- What a parse has taken are the first tokens of the source, and the upcoming one is the next. -/
theorem tokens_take (hs : stream source = used ++ₛ rest)
    (hused : ∀ k ∈ used.map Token.kind, k.isFinal = false) :
    (tokens source)[used.length]? = some rest.head ∧ (tokens source).take used.length = used ∧
      (tokens source).take (used.length + 1) = used ++ [rest.head] := by
  obtain ⟨ts, last, htokens, hends⟩ := exists_tokens_eq source
  rw [hs] at hends
  obtain ⟨left, rfl, hleft⟩ := hends.of_append fun t ht => hused t.kind (List.mem_map_of_mem ht)
  obtain ⟨after, hafter⟩ : ∃ after, left ++ [last] = rest.head :: after := by
    cases left with
    | nil => exact ⟨[], by rw [hleft.head_nil]; rfl⟩
    | cons t left => exact ⟨left ++ [last], by rw [hleft.head_cons]; rfl⟩
  rw [htokens, List.append_assoc, hafter]
  refine ⟨?_, List.take_left, ?_⟩
  · rw [List.getElem?_append_right le_rfl, Nat.sub_self]
    rfl
  · rw [List.take_length_add_append]
    rfl

end

/-- The fault says what is wrong with the token: that it is malformed exactly if it is, and that
the input has ended only if it has. -/
structure ParseFault.Suits (fault : ParseFault) (k : TokenKind) : Prop where
  lexical_iff : ∀ x, fault = .lexical x ↔ k = .malformed x
  endOfInput : fault = .unexpectedEnd → k = .endOfInput

theorem ParseFault.lexical_suits (x : ScanError) : (lexical x).Suits (.malformed x) :=
  ⟨fun y => by rw [lexical.injEq, TokenKind.malformed.injEq], nofun⟩

theorem TokenKind.misplaced_suits (fault : ParseFault) (hlexical : ∀ x, fault ≠ .lexical x)
    (hend : fault ≠ .unexpectedEnd) (k : TokenKind) : (k.misplaced fault).Suits k := by
  cases k with
  | malformed x => exact ParseFault.lexical_suits x
  | _ => exact ⟨fun x => ⟨fun h => absurd h (hlexical x), nofun⟩, fun h => absurd h hend⟩

theorem TokenKind.noOperand_suits (k : TokenKind) : k.noOperand.Suits k := by
  cases k with
  | endOfInput => exact ⟨fun x => ⟨nofun, nofun⟩, fun _ => rfl⟩
  | malformed x => exact ParseFault.lexical_suits x
  | _ => exact ⟨fun x => ⟨nofun, nofun⟩, nofun⟩

theorem Rule.Halts.suits {r : Rule} {ks : List TokenKind} {k : TokenKind} {fault : ParseFault}
    (h : r.Halts ks k fault) (hfault : fault ≠ .expectedIdentifier) : fault.Suits k := by
  cases h with
  | noOperand _ _ => exact k.noOperand_suits
  | malformed _ => exact ParseFault.lexical_suits _
  | unclosed _ _ _ => exact TokenKind.misplaced_suits (.expected .rightParen) nofun nofun k
  | notMember => exact absurd rfl hfault

/-- Only a path that is no member is blamed on a token that has been taken, the first one after the
dot. -/
theorem Rule.Halts.of_expectedIdentifier {r : Rule} {ks : List TokenKind} {k : TokenKind}
    {fault : ParseFault} (h : r.Halts ks k fault) (hfault : fault = .expectedIdentifier) :
    (∃ before, ks = before ++ [.symbol .dot]) ∧ ∀ name, k ≠ .identifier name := by
  cases h with
  | noOperand _ _ => cases k <;> cases hfault
  | malformed _ => cases hfault
  | unclosed _ _ _ => cases k <;> cases hfault
  | notMember _ hname => exact ⟨⟨_, rfl⟩, hname⟩

/-- The error is at a token up to which the tokens are the beginning of a sentence, and with which
they are not. -/
def ParseError.AtFirstImpossible (ts : List Token) (e : ParseError) : Prop :=
  ∃ k, ts[k]? = some e.token ∧ Viable (ts.take k) ∧ ¬ Viable (ts.take (k + 1)) ∧
    e.fault.Suits e.token.kind

/-- The error is at a token after a dot, up to which the tokens are the beginning of a sentence,
and which is no name. -/
def ParseError.AfterDot (ts : List Token) (e : ParseError) : Prop :=
  ∃ k dot, ts[k]? = some dot ∧ dot.kind = .symbol .dot ∧ ts[k + 1]? = some e.token ∧
    (∀ name, e.token.kind ≠ .identifier name) ∧ Viable (ts.take (k + 1))

section
variable {source : String} {used halted : List Token} {rest : Stream' Token} {e : ParseError}
  {q : Rule}

/-- The tokens before the one at which a rule halts are the beginning of a sentence. -/
theorem take_of_halts (hs : stream source = used ++ₛ (halted ++ₛ rest))
    (ht : rest.head = e.token) (hr : Rule.expression.Reaches (used.map Token.kind) q)
    (hh : q.Halts (halted.map Token.kind) e.token.kind e.fault) :
    (tokens source)[(used ++ halted).length]? = some e.token ∧
      (tokens source).take (used ++ halted).length = used ++ halted ∧
      (tokens source).take ((used ++ halted).length + 1) = used ++ halted ++ [e.token] ∧
      Viable ((tokens source).take (used ++ halted).length) := by
  rw [← Stream'.append_append_stream] at hs
  have hopen : ∀ k ∈ (used ++ halted).map Token.kind, k.isFinal = false := by
    rw [List.map_append]
    exact List.forall_mem_append.mpr ⟨hr.isFinal_eq_false, hh.isFinal_eq_false⟩
  have htake := tokens_take hs hopen
  rw [ht] at htake
  refine ⟨htake.1, htake.2.1, htake.2.2, ?_⟩
  rw [htake.2.1]
  refine viable_of_completable ?_
  rw [List.map_append]
  exact hr.completable hh.completable

theorem atFirstImpossible_of_halts (hs : stream source = used ++ₛ (halted ++ₛ rest))
    (ht : rest.head = e.token) (hr : Rule.expression.Reaches (used.map Token.kind) q)
    (hh : q.Halts (halted.map Token.kind) e.token.kind e.fault)
    (hfault : e.fault ≠ .expectedIdentifier) : e.AtFirstImpossible (tokens source) := by
  obtain ⟨hget, _, htake, hviable⟩ := take_of_halts hs ht hr hh
  refine ⟨(used ++ halted).length, hget, hviable, ?_, hh.suits hfault⟩
  -- A sentence with these tokens in front would be accepted, but the rule halts there again.
  rw [htake]
  refine not_viable_of_accepts fun rest' hhead b root s' ha => ?_
  rw [Stream'.append_append_stream] at ha
  exact absurd ha (hr.rejects rfl (hh.rejects rfl hhead hfault) b root s')

theorem afterDot_of_halts (hs : stream source = used ++ₛ (halted ++ₛ rest))
    (ht : rest.head = e.token) (hr : Rule.expression.Reaches (used.map Token.kind) q)
    (hh : q.Halts (halted.map Token.kind) e.token.kind e.fault)
    (hfault : e.fault = .expectedIdentifier) : e.AfterDot (tokens source) := by
  obtain ⟨hget, htake, _, hviable⟩ := take_of_halts hs ht hr hh
  obtain ⟨⟨before, hbefore⟩, hname⟩ := hh.of_expectedIdentifier hfault
  obtain ⟨ts, us, rfl, _, hus⟩ := List.map_eq_append_iff.mp hbefore
  obtain ⟨dot, rfl, hdot⟩ := List.map_eq_singleton_iff.mp hus
  have hlength : (used ++ (ts ++ [dot])).length = (used ++ ts).length + 1 := by
    simp only [List.length_append, List.length_singleton, Nat.add_assoc]
  rw [hlength] at hget htake hviable
  refine ⟨(used ++ ts).length, dot, ?_, hdot, hget, hname, hviable⟩
  rw [← List.getElem?_take_of_lt (Nat.lt_add_one _), htake, ← List.append_assoc,
    List.getElem?_concat_length]

/-- A token that is left over after an expression is the first impossible one. -/
theorem atFirstImpossible_of_accepts {b : Nat} {root : Expr}
    (ha : Accepts b .expression (stream source) root rest) (hend : rest.head.kind ≠ .endOfInput) :
    ParseError.AtFirstImpossible (tokens source)
      ⟨rest.head.kind.misplaced (.unexpected rest.head.kind), [], rest.head⟩ := by
  obtain ⟨used, hs, hd⟩ := ha.derives
  obtain ⟨hget, htake, htake'⟩ := tokens_take hs hd.isFinal_eq_false
  refine ⟨used.length, hget, ?_, ?_, TokenKind.misplaced_suits (.unexpected _) nofun nofun _⟩
  · rw [htake]
    exact viable_of_completable ⟨[], root, by rwa [List.append_nil], nofun⟩
  · rw [htake']
    refine not_viable_of_accepts fun rest' hhead b' root' s' ha' => ?_
    have hreach : Rule.expression.height < rest'.head.kind.reach := by
      rw [hhead]
      exact ha.height_lt_reach nofun
    obtain ⟨_, rfl⟩ := hd.eq_of_accepts hreach ha'
    rwa [hhead]

end

/-- A parse that fails, and not because of the limit, reports the first token that cannot continue a
sentence, and the fault that suits it. If a member is expected, it reports the token after the dot,
which is no name. -/
theorem parseWith_error_position (limit : Nat) (source : String) (e : ParseError)
    (h : (parseWith limit source).result = .error e) (hlimit : ¬ e.fault.IsTooDeep) :
    (e.fault ≠ .expectedIdentifier → e.AtFirstImpossible (tokens source)) ∧
      (e.fault = .expectedIdentifier → e.AfterDot (tokens source)) := by
  rw [← program_stream_result] at h
  rcases accepts_or_fails limit limit [] .expression (stream source) with
    ⟨root, rest, ha⟩ | ⟨e', s', hf⟩
  · rw [ha.program_eq, Expr.finish] at h
    split at h
    · cases h
    · rename_i hend
      cases h
      refine ⟨fun _ => atFirstImpossible_of_accepts ha hend, fun hfault => ?_⟩
      -- What is left over is never blamed for a path.
      change TokenKind.misplaced _ _ = _ at hfault
      cases hk : rest.head.kind <;> rw [hk] at hfault <;> cases hfault
  · rw [hf.program_eq] at h
    cases h
    obtain ⟨used, halted, rest, q, hs, ht, hr, hh⟩ := hf.exists_halts hlimit
    exact ⟨atFirstImpossible_of_halts hs ht hr hh, afterDot_of_halts hs ht hr hh⟩

/-- In `a . 1 b` the path is blamed on its first token, although the name after it is superfluous
too; in `a . 1 . b c` only the latter is wrong. -/
theorem error_position_path :
    (∃ e, (parseWith 16 "a . 1 b").result = .error e ∧ ¬ e.fault.IsTooDeep ∧
      e.fault = .expectedIdentifier ∧ e.AfterDot (tokens "a . 1 b")) ∧
    ∃ e, (parseWith 16 "a . 1 . b c").result = .error e ∧ ¬ e.fault.IsTooDeep ∧
      e.fault ≠ .expectedIdentifier ∧ e.AtFirstImpossible (tokens "a . 1 . b c") := by
  constructor
  · have h : ∃ rules token, (parseWith 16 "a . 1 b").result =
        .error ⟨.expectedIdentifier, rules, token⟩ := ⟨_, _, rfl⟩
    obtain ⟨rules, token, h⟩ := h
    have hlimit : ¬ ParseFault.expectedIdentifier.IsTooDeep := by rintro ⟨m, hm⟩; cases hm
    exact ⟨_, h, hlimit, rfl, (parseWith_error_position 16 _ _ h hlimit).2 rfl⟩
  · have h : ∃ rules token, (parseWith 16 "a . 1 . b c").result =
        .error ⟨.unexpected (.identifier "c"), rules, token⟩ := ⟨_, _, rfl⟩
    obtain ⟨rules, token, h⟩ := h
    have hlimit : ¬ (ParseFault.unexpected (.identifier "c")).IsTooDeep := by
      rintro ⟨m, hm⟩; cases hm
    exact ⟨_, h, hlimit, nofun, (parseWith_error_position 16 _ _ h hlimit).1 nofun⟩

end PredicateLang
