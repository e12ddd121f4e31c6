import PredicateLang.Proofs.Grammar.Outcome
import PredicateLang.Proofs.Token.Layout
import PredicateLang.Program

/-!
# Parsing does not see where tokens stand

A parse looks at the kinds of tokens and at nothing else; spans only travel along with
the token that an error blames. So two sources whose tokens are of the same kinds have
the same tree or the same error, and a source means the same under every layout.
-/

namespace PredicateLang

/-- The streams hand out tokens of the same kinds. -/
def SameKinds (s t : Stream' Token) : Prop :=
  s.map Token.kind = t.map Token.kind

/-- The errors are the same, but their tokens may stand in different places. -/
structure ParseError.Alike (e e' : ParseError) : Prop where
  fault : e.fault = e'.fault
  rules : e.rules = e'.rules
  kind : e.token.kind = e'.token.kind

/-- Both have the same value, or they fail with errors that are alike. -/
inductive SameOutcome {α : Type} : Except ParseError α → Except ParseError α → Prop
  | ok (a : α) : SameOutcome (.ok a) (.ok a)
  | error {e e'} : e.Alike e' → SameOutcome (.error e) (.error e')

namespace SameKinds

variable {s t : Stream' Token}

theorem head (h : SameKinds s t) : s.head.kind = t.head.kind :=
  congrArg Stream'.head h

theorem tail (h : SameKinds s t) : SameKinds s.tail t.tail :=
  congrArg Stream'.tail h

theorem of_tokens {source source' : String}
    (h : (tokens source).map Token.kind = (tokens source').map Token.kind) :
    SameKinds (stream source) (stream source') := by
  obtain ⟨ts, last, htokens, hs⟩ := exists_tokens_eq source
  obtain ⟨ts', last', htokens', hs'⟩ := exists_tokens_eq source'
  rw [htokens, htokens', List.map_append, List.map_append] at h
  obtain ⟨hkinds, hlast⟩ := List.append_inj' h rfl
  have hlast : last.kind = last'.kind := List.singleton_inj.mp hlast
  rw [SameKinds, hs.eq_append, hs'.eq_append, Stream'.map_append_stream, Stream'.map_append_stream,
    hkinds, Stream'.map_const, Stream'.map_const, hlast]

end SameKinds

/-- What is accepted on one stream is accepted on the other as the same expression. -/
theorem Accepts.of_sameKinds {b : Nat} {r : Rule} {s s' t : Stream' Token} {e : Expr}
    (h : Accepts b r s e s') (hst : SameKinds s t) :
    ∃ t', Accepts b r t e t' ∧ SameKinds s' t' := by
  induction h generalizing t with
  | expression _ ih =>
    obtain ⟨t', ht, hst'⟩ := ih hst
    exact ⟨t', .expression ht, hst'⟩
  | operand _ hop hm ih =>
    obtain ⟨t', ht, hst'⟩ := ih hst
    rw [hst'.head] at hop hm
    exact ⟨t', .operand ht hop hm, hst'⟩
  | binary _ hop _ ihl ihr =>
    obtain ⟨t₁, hl, hst₁⟩ := ihl hst
    obtain ⟨t₂, hr, hst₂⟩ := ihr hst₁.tail
    rw [hst₁.head] at hop
    exact ⟨t₂, .binary hl hop hr, hst₂⟩
  | base _ hd hm ih =>
    obtain ⟨t', ht, hst'⟩ := ih hst
    rw [hst'.head] at hd hm
    exact ⟨t', .base ht hd hm, hst'⟩
  | member _ hd _ hp ihb ihp =>
    obtain ⟨t₁, hb, hst₁⟩ := ihb hst
    obtain ⟨t₂, hpath, hst₂⟩ := ihp hst₁.tail
    rw [hst₁.head] at hd
    exact ⟨t₂, .member hb hd hpath hp, hst₂⟩
  | atom he =>
    rw [hst.head] at he
    exact ⟨t.tail, .atom he, hst.tail⟩
  | group hl _ hr ih =>
    obtain ⟨t₁, hi, hst₁⟩ := ih hst.tail
    rw [hst.head] at hl
    rw [hst₁.head] at hr
    exact ⟨t₁.tail, .group hl hi hr, hst₁.tail⟩

/-- What fails on one stream fails on the other with an error that is alike. -/
theorem Fails.of_sameKinds {limit b : Nat} {a : List Rule} {r : Rule} {s s' t : Stream' Token}
    {e : ParseError} (h : Fails limit b a r s e s') (hst : SameKinds s t) :
    ∃ e' t', Fails limit b a r t e' t' ∧ e.Alike e' := by
  induction h generalizing t with
  | tooDeep => exact ⟨_, t, .tooDeep, rfl, rfl, hst.head⟩
  | expression _ ih =>
    obtain ⟨e', t', ht, he⟩ := ih hst
    exact ⟨e', t', .expression ht, he⟩
  | operand _ ih =>
    obtain ⟨e', t', ht, he⟩ := ih hst
    exact ⟨e', t', .operand ht, he⟩
  | afterOperand hl hx =>
    obtain ⟨t', ht, hst'⟩ := hl.of_sameKinds hst
    rw [hst'.head] at hx
    exact ⟨_, t', .afterOperand ht hx, rfl, rfl, hst'.head⟩
  | right hl hop _ ih =>
    obtain ⟨t₁, ht, hst₁⟩ := hl.of_sameKinds hst
    obtain ⟨e', t₂, hr, he⟩ := ih hst₁.tail
    rw [hst₁.head] at hop
    exact ⟨e', t₂, .right ht hop hr, he⟩
  | base _ ih =>
    obtain ⟨e', t', ht, he⟩ := ih hst
    exact ⟨e', t', .base ht, he⟩
  | afterBase hb hx =>
    obtain ⟨t', ht, hst'⟩ := hb.of_sameKinds hst
    rw [hst'.head] at hx
    exact ⟨_, t', .afterBase ht hx, rfl, rfl, hst'.head⟩
  | path hb hd _ ih =>
    obtain ⟨t₁, ht, hst₁⟩ := hb.of_sameKinds hst
    obtain ⟨e', t₂, hp, he⟩ := ih hst₁.tail
    rw [hst₁.head] at hd
    exact ⟨e', t₂, .path ht hd hp, he⟩
  | notMember hb hd hp hm =>
    obtain ⟨t₁, ht, hst₁⟩ := hb.of_sameKinds hst
    obtain ⟨t₂, hpath, -⟩ := hp.of_sameKinds hst₁.tail
    rw [hst₁.head] at hd
    exact ⟨_, t₂, .notMember ht hd hpath hm, rfl, rfl, hst₁.tail.head⟩
  | inner hl _ ih =>
    obtain ⟨e', t₁, hi, he⟩ := ih hst.tail
    rw [hst.head] at hl
    exact ⟨e', t₁, .inner hl hi, he⟩
  | unclosed hl hi hr =>
    obtain ⟨t₁, ht, hst₁⟩ := hi.of_sameKinds hst.tail
    rw [hst.head] at hl
    rw [hst₁.head] at hr
    refine ⟨_, t₁.tail, .unclosed hl ht hr, ?_, rfl, hst₁.head⟩
    rw [hst₁.head]
  | noOperand hp hl =>
    rw [hst.head] at hp hl
    refine ⟨_, t.tail, .noOperand hp hl, ?_, rfl, hst.head⟩
    rw [hst.head]

theorem Expr.finish_of_sameKinds (root : Expr) {s t : Stream' Token} (h : SameKinds s t) :
    SameOutcome (root.finish s) (root.finish t) := by
  have hhead := h.head
  unfold finish
  rw [← hhead]
  cases s.head.kind with
  | endOfInput => exact .ok _
  | _ => exact .error ⟨rfl, rfl, hhead⟩

/-- Sources whose tokens are of the same kinds have the same outcome under every limit. -/
theorem parseWith_of_kinds {source source' : String}
    (h : (tokens source).map Token.kind = (tokens source').map Token.kind) (limit : Nat) :
    SameOutcome (parseWith limit source).result (parseWith limit source').result := by
  have hst := SameKinds.of_tokens h
  rw [← program_stream_result, ← program_stream_result]
  rcases accepts_or_fails limit limit [] .expression (stream source) with
    ⟨root, s', hs⟩ | ⟨e, s', hs⟩
  · obtain ⟨t', ht, hst'⟩ := hs.of_sameKinds hst
    rw [hs.program_eq, ht.program_eq]
    exact root.finish_of_sameKinds hst'
  · obtain ⟨e', t', ht, he⟩ := hs.of_sameKinds hst
    rw [hs.program_eq, ht.program_eq]
    exact .error he

theorem SameOutcome.map {α β : Type} {x y : Except ParseError α} (f : α → β)
    (h : SameOutcome x y) : SameOutcome (x.map f) (y.map f) := by
  cases h with
  | ok a => exact .ok (f a)
  | error he => exact .error he

/-- A source is its words with its gaps between them, and under every layout it has tokens of the
same kinds and with the same texts. Whatever the limit, it is parsed as the same tree, or fails with
the same fault, the same rules and a token of the same kind, and it runs the same in every world and
context. -/
theorem Layout.sameOutcome_text {source : String} (l : Layout source)
    (hend : (tokens source).getLast?.map Token.kind = some .endOfInput) :
    Source.interleave (Source.gaps source) (Source.words source) = source ∧
      (tokens l.text).map Token.kind = (tokens source).map Token.kind ∧
      Source.words l.text = Source.words source ∧
      (∀ limit, SameOutcome (parseWith limit l.text).result (parseWith limit source).result) ∧
      ∀ (σ : Type) (world : World σ) (context : Value) (state : σ),
        SameOutcome (evaluate world context state l.text).execution
          (evaluate world context state source).execution := by
  obtain ⟨hsource, hkinds, hwords⟩ := l.tokens_text hend
  have hparse := parseWith_of_kinds hkinds
  refine ⟨hsource, hkinds, hwords, hparse, ?_⟩
  intro σ world context state
  exact (hparse defaultDepth).map _

theorem Layout.sameOutcome_text_difference :
    (tokens "u-1.b").getLast?.map Token.kind = some .endOfInput ∧
      ∃ l : Layout "u-1.b", l.text = "\nu -\t1. b" ∧
        ∀ limit, SameOutcome (parseWith limit "\nu -\t1. b").result
          (parseWith limit "u-1.b").result := by
  have hend : (tokens "u-1.b").getLast?.map Token.kind = some .endOfInput := by
    with_unfolding_all rfl
  have hgaps : Source.gaps "u-1.b" = List.replicate 6 "" := by decide +kernel
  have hblank : ∀ gap ∈ ["\n", " ", "\t", "", " ", ""], gap.toList.all Text.isBlank = true := by
    decide +kernel
  let l : Layout "u-1.b" := {
    gaps := ["\n", " ", "\t", "", " ", ""]
    length_eq := by decide +kernel
    blank := fun gap hgap => List.all_eq_true.mp (hblank gap hgap)
    separates := fun i _ hi _ => by
      have hlt : i < 6 := Nat.lt_of_succ_lt hi
      rw [hgaps, List.getElem?_replicate_of_lt hlt] }
  have htext : l.text = "\nu -\t1. b" := by
    show Source.interleave ["\n", " ", "\t", "", " ", ""] (Source.words "u-1.b") = _
    decide +kernel
  obtain ⟨_, _, _, hparse, _⟩ := l.sameOutcome_text hend
  rw [htext] at hparse
  exact ⟨hend, l, htext, hparse⟩

end PredicateLang
