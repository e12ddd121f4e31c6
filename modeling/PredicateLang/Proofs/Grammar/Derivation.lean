import PredicateLang.Proofs.Grammar.Budget

/-!
# The grammar

The grammar of the language as a relation between the kinds of a sequence of
tokens and the tree that the sequence is a sentence for. The parser accepts a
stream exactly as far as the grammar derives it: what it takes is derivable, and
a derivable sequence is taken whole where the token after it cannot go on with
the rule. The grammar is therefore unambiguous.
-/

namespace PredicateLang

/-- The symbols of each level of binary operators. -/
inductive Level.Writes : Level → Symbol → BinaryOp → Prop
  | or : Writes .or .or .or
  | and : Writes .and .and .and
  | equal : Writes .relation .equal (.relation .equal)
  | notEqual : Writes .relation .notEqual (.relation .notEqual)
  | less : Writes .relation .less (.relation .less)
  | lessOrEqual : Writes .relation .lessOrEqual (.relation .lessOrEqual)
  | greater : Writes .relation .greater (.relation .greater)
  | greaterOrEqual : Writes .relation .greaterOrEqual (.relation .greaterOrEqual)
  | plus : Writes .sum .plus (.arithmetic .plus)
  | minus : Writes .sum .minus (.arithmetic .minus)
  | times : Writes .product .star (.arithmetic .times)
  | divide : Writes .product .slash (.arithmetic .divide)
  | remainder : Writes .product .percent (.arithmetic .remainder)

/-- Each level is built over the next tighter rule. -/
inductive Level.BuiltOver : Level → Rule → Prop
  | or : BuiltOver .or (.level .and)
  | and : BuiltOver .and (.level .relation)
  | relation : BuiltOver .relation (.level .sum)
  | sum : BuiltOver .sum (.level .product)
  | product : BuiltOver .product .deref

/-- The tokens that are an expression by themselves. -/
inductive Atom : TokenKind → Expr → Prop
  | number (x : Float) : Atom (.number x) (.literal (.number x))
  | string (s : String) : Atom (.string s) (.literal (.string s))
  | uuid (s : String) : Atom (.uuid s) (.literal (.string s))
  | boolean (b : Bool) : Atom (.boolean b) (.literal (.boolean b))
  | nil : Atom .nil (.literal .nil)
  | identifier (name : String) : Atom (.identifier name) (.identifier name)

/-- The rule derives a sequence of tokens and builds a tree from it. -/
inductive Derives : Rule → List TokenKind → Expr → Prop
  | expression {ks e} : Derives (.level .or) ks e → Derives .expression ks e
  | operand {l r ks e} : Level.BuiltOver l r → Derives r ks e → Derives (.level l) ks e
  | binary {l r ks left c op ks' right} : Level.BuiltOver l r → Derives r ks left →
      Level.Writes l c op → Derives (.level l) ks' right →
      Derives (.level l) (ks ++ .symbol c :: ks') (.binary op left right)
  | base {ks e} : Derives .primary ks e → Derives .deref ks e
  | member {ks base ks' path} : Derives .primary ks base → Derives .deref ks' path →
      path.isMember = true → Derives .deref (ks ++ .symbol .dot :: ks') (.member base path)
  | atom {k e} : Atom k e → Derives .primary [k] e
  | group {ks e} : Derives .expression ks e →
      Derives .primary (.symbol .leftParen :: (ks ++ [.symbol .rightParen])) e

/-- The tokens are one whole expression, followed by the end of input. -/
def Sentence (tokens : List Token) (e : Expr) : Prop :=
  ∃ ts last, tokens = ts ++ [last] ∧ last.kind = .endOfInput ∧
    Derives .expression (ts.map Token.kind) e

theorem Level.operator?_eq_some_iff {l : Level} {k : TokenKind} {op : BinaryOp} :
    l.operator? k = some op ↔ ∃ c, k = .symbol c ∧ l.Writes c op := by
  constructor
  · intro h
    cases k with
    | symbol c =>
      refine ⟨c, rfl, ?_⟩
      cases l <;> cases c <;> cases h <;> constructor
    | _ => cases l <;> cases h
  · rintro ⟨c, rfl, h⟩
    cases h <;> rfl

theorem Level.builtOver_iff {l : Level} {r : Rule} : l.BuiltOver r ↔ l.operand = r := by
  constructor
  · intro h
    cases h <;> rfl
  · rintro rfl
    cases l <;> constructor

theorem primary?_eq_some_iff {k : TokenKind} {e : Expr} : k.primary? = some e ↔ Atom k e := by
  constructor
  · intro h
    cases k <;> cases h <;> constructor
  · intro h
    cases h <;> rfl

/-- The height of the rule that takes the token as its operator. A malformed token stops every
rule that looks at it, and a token that is no operator concerns none. -/
def TokenKind.reach : TokenKind → Nat
  | .malformed _ => 0
  | .symbol .dot => 2
  | .symbol .star | .symbol .slash | .symbol .percent => 3
  | .symbol .plus | .symbol .minus => 4
  | .symbol .equal | .symbol .notEqual | .symbol .less | .symbol .lessOrEqual
  | .symbol .greater | .symbol .greaterOrEqual => 5
  | .symbol .and => 6
  | .symbol .or => 7
  | _ => 9

theorem TokenKind.reach_of_operator? {l : Level} {k : TokenKind} {op : BinaryOp}
    (h : l.operator? k = some op) : k.reach = (Rule.level l).height := by
  obtain ⟨c, rfl, hw⟩ := Level.operator?_eq_some_iff.mp h
  cases hw <;> rfl

theorem TokenKind.operator?_of_lt_reach {l : Level} {k : TokenKind}
    (h : (Rule.level l).height < k.reach) : l.operator? k = none := by
  cases hop : l.operator? k with
  | none => rfl
  | some op =>
    have hreach := reach_of_operator? hop
    omega

theorem TokenKind.ne_malformed_of_lt_reach {n : Nat} {k : TokenKind} (h : n < k.reach)
    (x : ScanError) : k ≠ .malformed x := by
  rintro rfl
  exact absurd h (Nat.not_lt_zero n)

/-- What ends a whole expression is out of the reach of every rule. -/
theorem TokenKind.expression_lt_reach {k : TokenKind}
    (h : k = .endOfInput ∨ k = .symbol .rightParen) : Rule.expression.height < k.reach := by
  rcases h with rfl | rfl <;> exact Nat.lt_add_one 8

theorem append_head {s s' : Stream' Token} {ts : List Token} (h : s.tail = ts ++ₛ s') :
    s = (s.head :: ts) ++ₛ s' := by
  rw [Stream'.cons_append_stream, ← h, Stream'.eta]

/-- What a rule takes is derivable, and the tree is the one that the parser builds. -/
theorem Accepts.derives {b : Nat} {r : Rule} {s s' : Stream' Token} {e : Expr}
    (h : Accepts b r s e s') : ∃ ts, s = ts ++ₛ s' ∧ Derives r (ts.map Token.kind) e := by
  induction h with
  | expression _ ih =>
    obtain ⟨ts, hs, hd⟩ := ih
    exact ⟨ts, hs, .expression hd⟩
  | operand _ _ _ ih =>
    obtain ⟨ts, hs, hd⟩ := ih
    exact ⟨ts, hs, .operand (Level.builtOver_iff.mpr rfl) hd⟩
  | @binary b s left s₁ right s₂ l op _ hop _ ihl ihr =>
    obtain ⟨ts, hs, hd⟩ := ihl
    obtain ⟨ts', hs', hd'⟩ := ihr
    obtain ⟨c, hc, hw⟩ := Level.operator?_eq_some_iff.mp hop
    refine ⟨ts ++ s₁.head :: ts', ?_, ?_⟩
    · rw [Stream'.append_append_stream, ← append_head hs', ← hs]
    · rw [List.map_append, List.map_cons, hc]
      exact .binary (Level.builtOver_iff.mpr rfl) hd hw hd'
  | base _ _ _ ih =>
    obtain ⟨ts, hs, hd⟩ := ih
    exact ⟨ts, hs, .base hd⟩
  | @member b s base s₁ path s₂ _ hdot _ hm ihb ihp =>
    obtain ⟨ts, hs, hd⟩ := ihb
    obtain ⟨ts', hs', hd'⟩ := ihp
    refine ⟨ts ++ s₁.head :: ts', ?_, ?_⟩
    · rw [Stream'.append_append_stream, ← append_head hs', ← hs]
    · rw [List.map_append, List.map_cons, hdot]
      exact .member hd hd' hm
  | @atom b s e he =>
    exact ⟨[s.head], (Stream'.append_stream_head_tail s).symm, .atom (primary?_eq_some_iff.mp he)⟩
  | @group b s e s₁ hl _ hr ih =>
    obtain ⟨ts, hs, hd⟩ := ih
    refine ⟨s.head :: (ts ++ [s₁.head]), ?_, ?_⟩
    · refine append_head ?_
      rw [Stream'.append_append_stream, Stream'.append_stream_head_tail, hs]
    · simp only [List.map_cons, List.map_append, List.map_nil, hl, hr]
      exact .group hd

theorem Derives.exists_length_eq {r : Rule} {ks : List TokenKind} {e : Expr} (h : Derives r ks e) :
    ∃ n, ks.length = n + 1 := by
  induction h with
  | expression _ ih | operand _ _ ih | base _ ih => exact ih
  | @binary _ _ ks _ _ _ ks' | @member ks _ ks' => exact ⟨ks.length + ks'.length, List.length_append⟩
  | atom => exact ⟨0, rfl⟩
  | @group ks => exact ⟨ks.length + 1, by simp⟩

/-- A derivable sequence is taken whole if the token after it is out of the reach of the rule. Each
token but the first pays for eight nested rules. -/
theorem Derives.accepts_within {r : Rule} {ks : List TokenKind} {e : Expr} (h : Derives r ks e)
    {n : Nat} (hn : ks.length = n + 1) (ts : List Token) (s : Stream' Token)
    (hts : ts.map Token.kind = ks) (hs : r.height < s.head.kind.reach) :
    Accepts (8 * n + r.height) r (ts ++ₛ s) e s := by
  induction h generalizing n ts s with
  | expression _ ih => exact .expression (ih hn ts s hts (Nat.lt_of_succ_lt hs))
  | @operand l r ks e hb _ ih =>
    obtain rfl := Level.builtOver_iff.mp hb
    have hl := l.height_operand
    rw [← hl, ← Nat.add_assoc]
    exact .operand (ih hn ts s hts (by omega)) (TokenKind.operator?_of_lt_reach hs)
      (TokenKind.ne_malformed_of_lt_reach hs)
  | @binary l r ks left c op ks' right hb hleft hw hright ihl ihr =>
    obtain rfl := Level.builtOver_iff.mp hb
    obtain ⟨n₁, hn₁⟩ := hleft.exists_length_eq
    obtain ⟨n₂, hn₂⟩ := hright.exists_length_eq
    rw [List.length_append, List.length_cons] at hn
    obtain ⟨ts₁, _, rfl, hts₁, hrest⟩ := List.map_eq_append_iff.mp hts
    obtain ⟨t, ts₂, rfl, ht, hts₂⟩ := List.map_eq_cons_iff.mp hrest
    have hop := Level.operator?_eq_some_iff.mpr ⟨c, ht, hw⟩
    have hreach := TokenKind.reach_of_operator? hop
    have hl := l.height_operand
    have ha₁ := ihl hn₁ ts₁ (t :: ts₂ ++ₛ s) hts₁ (by
      change _ < t.kind.reach
      omega)
    have ha₂ := ihr hn₂ ts₂ s hts₂ hs
    rw [Stream'.append_append_stream, ← hl, ← Nat.add_assoc]
    exact .binary (ha₁.mono (by omega)) hop (ha₂.mono (by omega))
  | base _ ih =>
    refine .base (ih hn ts s hts (Nat.lt_of_succ_lt hs)) ?_ (TokenKind.ne_malformed_of_lt_reach hs)
    intro hdot
    rw [hdot] at hs
    exact absurd hs (Nat.lt_irrefl 2)
  | member hbase hpath hm ihb ihp =>
    obtain ⟨n₁, hn₁⟩ := hbase.exists_length_eq
    obtain ⟨n₂, hn₂⟩ := hpath.exists_length_eq
    rw [List.length_append, List.length_cons] at hn
    obtain ⟨ts₁, _, rfl, hts₁, hrest⟩ := List.map_eq_append_iff.mp hts
    obtain ⟨t, ts₂, rfl, ht, hts₂⟩ := List.map_eq_cons_iff.mp hrest
    have ha₁ := ihb hn₁ ts₁ (t :: ts₂ ++ₛ s) hts₁ (by
      change 1 < t.kind.reach
      rw [ht]
      exact Nat.lt_add_one 1)
    have ha₂ := ihp hn₂ ts₂ s hts₂ hs
    simp only [Rule.height] at ha₁ ha₂ ⊢
    rw [Stream'.append_append_stream]
    exact .member (ha₁.mono (by omega)) ht (ha₂.mono (by omega)) hm
  | atom ha =>
    obtain ⟨t, rfl, ht⟩ := List.map_eq_singleton_iff.mp hts
    exact Accepts.atom (s := t :: [] ++ₛ s) (primary?_eq_some_iff.mpr (ht ▸ ha))
  | group hinner ih =>
    obtain ⟨m, hm⟩ := hinner.exists_length_eq
    rw [List.length_cons, List.length_append, List.length_singleton] at hn
    obtain ⟨t, ts', rfl, ht, hrest⟩ := List.map_eq_cons_iff.mp hts
    obtain ⟨ts₁, _, rfl, hts₁, hlast⟩ := List.map_eq_append_iff.mp hrest
    obtain ⟨u, rfl, hu⟩ := List.map_eq_singleton_iff.mp hlast
    have ha := ih hm ts₁ ([u] ++ₛ s) hts₁ (TokenKind.expression_lt_reach (.inr hu))
    simp only [Rule.height] at ha ⊢
    rw [Stream'.cons_append_stream, Stream'.append_append_stream]
    exact Accepts.group (s := Stream'.cons t (ts₁ ++ₛ ([u] ++ₛ s))) ht (ha.mono (by omega)) hu

theorem Derives.accepts {r : Rule} {ks : List TokenKind} {e : Expr} (h : Derives r ks e)
    (ts : List Token) (s : Stream' Token) (hts : ts.map Token.kind = ks)
    (hs : r.height < s.head.kind.reach) : ∃ b, Accepts b r (ts ++ₛ s) e s := by
  obtain ⟨n, hn⟩ := h.exists_length_eq
  exact ⟨_, h.accepts_within hn ts s hts hs⟩

/-- No rule derives two trees from one sequence. -/
theorem Derives.unique {r : Rule} {ks : List TokenKind} {e e' : Expr} (h : Derives r ks e)
    (h' : Derives r ks e') : e = e' := by
  let ts : List Token := ks.map fun k => ⟨k, ⟨0, 0⟩⟩
  let s : Stream' Token := Stream'.const ⟨.endOfInput, ⟨0, 0⟩⟩
  have hts : ts.map Token.kind = ks := by
    rw [List.map_map]
    exact List.map_id _
  have hs : r.height < s.head.kind.reach := by
    change r.height < 9
    cases r with
    | level l => cases l <;> decide
    | _ => decide
  obtain ⟨b, ha⟩ := h.accepts ts s hts hs
  obtain ⟨b', ha'⟩ := h'.accepts ts s hts hs
  exact (ha.unique ha').1

theorem Derives.isFinal_eq_false {r : Rule} {ks : List TokenKind} {e : Expr} (h : Derives r ks e) :
    ∀ k ∈ ks, k.isFinal = false := by
  induction h with
  | expression _ ih | operand _ _ ih | base _ ih => exact ih
  | binary _ _ _ _ ihl ihr | member _ _ _ ihl ihr =>
    intro k hk
    rcases List.mem_append.mp hk with hk | hk
    · exact ihl k hk
    · rcases List.mem_cons.mp hk with rfl | hk
      · rfl
      · exact ihr k hk
  | @atom k e ha =>
    intro k' hk
    obtain rfl := List.mem_singleton.mp hk
    cases ha <;> rfl
  | group _ ih =>
    intro k hk
    simp only [List.mem_cons, List.mem_append, List.not_mem_nil, or_false] at hk
    rcases hk with rfl | hk | rfl
    · rfl
    · exact ih k hk
    · rfl

/-- Unfinished tokens at the front of a stream are among those before its last token. -/
theorem Ends.of_append {s : Stream' Token} {ts used : List Token} {last : Token}
    (h : Ends (used ++ₛ s) ts last) (hused : ∀ t ∈ used, t.kind.isFinal = false) :
    ∃ rest, ts = used ++ rest ∧ Ends s rest last := by
  induction used generalizing ts with
  | nil => exact ⟨ts, rfl, h⟩
  | cons t used ih =>
    obtain ⟨tail, rfl, htail⟩ := h.exists_cons (hused t (List.mem_cons_self ..))
    obtain ⟨rest, rfl, hrest⟩ := ih htail fun u hu => hused u (List.mem_cons_of_mem t hu)
    exact ⟨rest, rfl, hrest⟩

/-- A whole expression that is accepted up to the end of input is a sentence, and conversely. -/
theorem sentence_iff_accepts {s : Stream' Token} {ts : List Token} {last : Token} {e : Expr}
    (hs : Ends s ts last) :
    Sentence (ts ++ [last]) e ↔ ∃ b s', Accepts b .expression s e s' ∧ s'.head.kind = .endOfInput := by
  constructor
  · rintro ⟨ts', last', heq, hlast, hd⟩
    obtain ⟨rfl, hl⟩ := List.append_inj' heq rfl
    obtain rfl := List.singleton_inj.mp hl
    obtain ⟨b, ha⟩ := hd.accepts ts (Stream'.const last) rfl
      (TokenKind.expression_lt_reach (.inl hlast))
    exact ⟨b, Stream'.const last, hs.eq_append ▸ ha, hlast⟩
  · rintro ⟨b, s', ha, hend⟩
    obtain ⟨used, rfl, hd⟩ := ha.derives
    obtain ⟨rest, rfl, hrest⟩ := hs.of_append fun t ht =>
      hd.isFinal_eq_false t.kind (List.mem_map_of_mem ht)
    have hnil : rest = [] := by
      cases rest with
      | nil => rfl
      | cons t rest =>
        have ht := hrest.unfinished t (List.mem_cons_self ..)
        rw [← hrest.head_cons, hend] at ht
        cases ht
    subst hnil
    refine ⟨used, last, by rw [List.append_nil], ?_, hd⟩
    rw [← hrest.head_nil, hend]

theorem Expr.finish_eq_ok_iff {e : Expr} {s : Stream' Token} {p : Program} :
    e.finish s = .ok p ↔ s.head.kind = .endOfInput ∧ p = ⟨e⟩ := by
  unfold Expr.finish
  constructor
  · intro h
    split at h
    · cases h
      exact ⟨‹_›, rfl⟩
    · cases h
  · rintro ⟨hk, rfl⟩
    rw [hk]

/-- A tree that a parse yields is the tree of the tokens of the source, whatever the limit. -/
theorem accepts_of_parseWith {limit : Nat} {source : String} {p : Program}
    (h : (parseWith limit source).result = .ok p) :
    ∃ s', Accepts limit .expression (stream source) p.root s' ∧ s'.head.kind = .endOfInput := by
  rw [← program_stream_result] at h
  rcases accepts_or_fails limit limit [] .expression (stream source) with
    ⟨root, s', ha⟩ | ⟨e, s', hf⟩
  · rw [ha.program_eq, Expr.finish_eq_ok_iff] at h
    obtain ⟨hend, rfl⟩ := h
    exact ⟨s', ha, hend⟩
  · rw [hf.program_eq] at h
    cases h

theorem sentence_of_parseWith {limit : Nat} {source : String} {p : Program}
    (h : (parseWith limit source).result = .ok p) : Sentence (tokens source) p.root := by
  obtain ⟨ts, last, htokens, hs⟩ := exists_tokens_eq source
  rw [htokens, sentence_iff_accepts hs]
  obtain ⟨s', ha, hend⟩ := accepts_of_parseWith h
  exact ⟨limit, s', ha, hend⟩

theorem Sentence.parseWith_eq {limit : Nat} {source : String} {root : Expr}
    (h : Sentence (tokens source) root)
    (hcut : ∀ e, (parseWith limit source).result = .error e → ¬ e.fault.IsTooDeep) :
    (parseWith limit source).result = .ok ⟨root⟩ := by
  obtain ⟨ts, last, htokens, hs⟩ := exists_tokens_eq source
  rw [htokens, sentence_iff_accepts hs] at h
  obtain ⟨b, s', ha, hend⟩ := h
  rw [← program_stream_result] at hcut ⊢
  rcases accepts_or_fails limit limit [] .expression (stream source) with
    ⟨root', s'', ha'⟩ | ⟨e, s'', hf⟩
  · obtain ⟨rfl, rfl⟩ := ha'.unique ha
    rw [ha'.program_eq, Expr.finish_eq_ok_iff]
    exact ⟨hend, rfl⟩
  · rw [hf.program_eq] at hcut
    have hf' := hf.mono (hcut e rfl) (Nat.le_max_right b limit) 0
    have ha' := (ha.mono (Nat.le_max_left b limit)).rule_eq 0 []
    rw [hf'.rule_eq] at ha'
    cases ha'

/-- No tokens are a sentence for two trees. -/
theorem Sentence.unique {ts : List Token} {e e' : Expr} (h : Sentence ts e)
    (h' : Sentence ts e') : e = e' := by
  obtain ⟨us, last, rfl, _, hd⟩ := h
  obtain ⟨us', last', heq, _, hd'⟩ := h'
  obtain ⟨rfl, _⟩ := List.append_inj' heq rfl
  exact hd.unique hd'

/-- A parse that is not cut off succeeds with a tree exactly if the tokens of the source are a
sentence for that tree, and no tokens are a sentence for two trees. -/
theorem parseWith_eq_ok_iff_sentence (limit : Nat) (source : String)
    (h : ∀ e, (parseWith limit source).result = .error e → ¬ e.fault.IsTooDeep) :
    (∀ p : Program, (parseWith limit source).result = .ok p ↔ Sentence (tokens source) p.root) ∧
      ∀ ts e e', Sentence ts e → Sentence ts e' → e = e' :=
  ⟨fun _ => ⟨sentence_of_parseWith, fun hs => hs.parseWith_eq h⟩, fun _ _ _ => Sentence.unique⟩

theorem sentence_path :
    (parseWith 9 "a.b").result = .ok ⟨.member (.identifier "a") (.identifier "b")⟩ ∧
      Sentence (tokens "a.b") (.member (.identifier "a") (.identifier "b")) := by
  have hparse : (parseWith 9 "a.b").result =
      .ok ⟨.member (.identifier "a") (.identifier "b")⟩ := rfl
  have h := parseWith_eq_ok_iff_sentence 9 "a.b" (by
    intro e he
    rw [hparse] at he
    cases he)
  exact ⟨hparse, (h.1 ⟨_⟩).mp hparse⟩

end PredicateLang
