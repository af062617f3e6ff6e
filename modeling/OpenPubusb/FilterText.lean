import OpenPubusb.Filter

/-! Filters as text. Every key and value is quoted and escaped, and an operand that is
itself a connective stands in parentheses; such a text parses back, and operands joined
without parentheses parse exactly when one connective joins them. -/

namespace OpenPubusb

/-- What joins the operands of a chain. -/
inductive Connective where
  | and
  | or
  deriving DecidableEq

def Connective.keyword : Connective → String
  | .and => "AND"
  | .or => "OR"

def Connective.node : Connective → List Expr → Expr
  | .and => .and
  | .or => .or

def escapeChar (c : Char) : List Char := if c = '"' ∨ c = '\\' then ['\\', c] else [c]

def escape (s : String) : List Char := s.toList.flatMap escapeChar

def quote (s : String) : List Char := '"' :: (escape s ++ ['"'])

def word (s : String) : List Char := s.toList

def CompareOp.text : CompareOp → List Char
  | .eq => word "="
  | .ne => word "!="

def Expr.compound : Expr → Bool
  | .not _ => true
  | .and _ => true
  | .or _ => true
  | _ => false

/-- The text of an operand, given the text of its expression. -/
def Expr.enclose (e : Expr) (text : List Char) : List Char :=
  if e.compound then word "(" ++ (text ++ word ")") else text

/-- Operands, each with the connective that stands before it. -/
def chainText (operands : List (Connective × List Char)) : List Char :=
  operands.flatMap fun o => word " " ++ (word o.1.keyword ++ (word " " ++ o.2))

def joinText (c : Connective) : List (List Char) → List Char
  | [] => []
  | first :: rest => first ++ chainText (rest.map fun t => (c, t))

mutual

def Expr.text : Expr → List Char
  | .compare attr op value =>
    word "attributes" ++ (word "." ++ (quote attr ++ (op.text ++ quote value)))
  | .hasAttr attr => word "attributes" ++ (word ":" ++ quote attr)
  | .hasPrefix attr start => word "hasPrefix" ++ (word "(" ++ (word "attributes" ++
    (word "." ++ (quote attr ++ (word "," ++ (quote start ++ word ")"))))))
  | .not e => word "NOT" ++ (word " " ++ e.enclose e.text)
  | .and operands => joinText .and (Expr.texts operands)
  | .or operands => joinText .or (Expr.texts operands)

def Expr.texts : List Expr → List (List Char)
  | [] => []
  | e :: es => e.enclose e.text :: Expr.texts es

end

def Expr.render (e : Expr) : String := String.ofList e.text

def Expr.operand (e : Expr) : List Char := e.enclose e.text

/-- Operands joined without parentheses. -/
def flatText (first : Expr) (rest : List (Connective × Expr)) : List Char :=
  first.operand ++ chainText (rest.map fun o => (o.1, o.2.operand))

mutual

/-- Every connective has two operands or more. -/
def Expr.Proper : Expr → Prop
  | .not e => e.Proper
  | .and operands => 2 ≤ operands.length ∧ Expr.AllProper operands
  | .or operands => 2 ≤ operands.length ∧ Expr.AllProper operands
  | _ => True

def Expr.AllProper : List Expr → Prop
  | [] => True
  | e :: es => e.Proper ∧ Expr.AllProper es

end

theorem Expr.allProper_iff {es : List Expr} : Expr.AllProper es ↔ ∀ e ∈ es, e.Proper := by
  induction es with
  | nil => exact ⟨fun _ => nofun, fun _ => trivial⟩
  | cons e es ih => rw [Expr.AllProper, ih, List.forall_mem_cons]

theorem Expr.texts_eq (es : List Expr) : Expr.texts es = es.map Expr.operand := by
  induction es with
  | nil => rfl
  | cons e es ih => rw [Expr.texts, ih, List.map_cons, Expr.operand]

theorem Connective.text_node (c : Connective) (first : Expr) (rest : List Expr) :
    (c.node (first :: rest)).text = flatText first (rest.map fun e => (c, e)) := by
  have hjoin : ∀ c, joinText c (Expr.texts (first :: rest)) =
      flatText first (rest.map fun e => (c, e)) := by
    intro c
    rw [Expr.texts_eq, List.map_cons, joinText, flatText, List.map_map, List.map_map]
    rfl
  cases c with
  | and => exact hjoin .and
  | or => exact hjoin .or

section Lexical

variable {cs rest : List Char}

theorem token_append (s : String) (cs : List Char) : token s (word s ++ cs) = some cs := by
  rw [token, word, if_pos (List.isPrefixOf_iff_prefix.mpr (List.prefix_append ..)), List.drop_left]

theorem skip_cons {c : Char} (h : isBlank c = false) : skip (c :: cs) = c :: cs :=
  List.dropWhile_cons_of_neg (by simp [h])

theorem escapeChar_cases (c : Char) :
    (c = '"' ∨ c = '\\') ∧ escapeChar c = ['\\', c] ∨
      (c ≠ '"' ∧ c ≠ '\\') ∧ escapeChar c = [c] := by
  unfold escapeChar
  by_cases h : c = '"' ∨ c = '\\'
  · exact Or.inl ⟨h, if_pos h⟩
  · exact Or.inr ⟨not_or.mp h, if_neg h⟩

theorem stringInner_plain {c : Char} (hquote : c ≠ '"') (hslash : c ≠ '\\') :
    stringInner (c :: cs) = (c :: (stringInner cs).1, (stringInner cs).2) := by
  rw [stringInner]
  · exact hquote
  · exact fun _ _ _ _ _ h => absurd h hslash
  · exact fun _ _ h => absurd h hslash
  · exact fun h => absurd h hslash

theorem stringInner_escape (s rest : List Char) :
    stringInner (s.flatMap escapeChar ++ '"' :: rest) = (s.flatMap escapeChar, '"' :: rest) := by
  induction s with
  | nil => rfl
  | cons c s ih =>
    rw [List.flatMap_cons, List.append_assoc]
    rcases escapeChar_cases c with ⟨rfl | rfl, he⟩ | ⟨⟨hquote, hslash⟩, he⟩
    · rw [he]
      simp [stringInner, ih]
    · rw [he]
      simp [stringInner, ih]
    · rw [he, List.singleton_append, stringInner_plain hquote hslash, ih]
      rfl

theorem unescape_plain {c : Char} (h : c ≠ '\\') :
    unescape (c :: cs) = (do return c :: (← unescape cs)) := by
  rw [unescape] <;> simp [h]

theorem unescape_escape (s : List Char) : unescape (s.flatMap escapeChar) = .ok s := by
  induction s with
  | nil => rfl
  | cons c s ih =>
    rw [List.flatMap_cons]
    rcases escapeChar_cases c with ⟨rfl | rfl, he⟩ | ⟨⟨_, hslash⟩, he⟩
    · rw [he]
      simp [unescape, ih]
    · rw [he]
      simp [unescape, ih]
    · rw [he, List.singleton_append, unescape_plain hslash, ih]
      rfl

theorem buildString_escape (s : String) : buildString (escape s) = .ok s := by
  rw [buildString, escape, unescape_escape]
  change Except.ok (String.ofList s.toList) = _
  rw [String.ofList_toList]

theorem parseString_quote (s : String) (rest : List Char) :
    parseString (quote s ++ rest) = some (escape s, rest) := by
  have hinner := stringInner_escape s.toList rest
  have htext : quote s ++ rest = '"' :: (escape s ++ '"' :: rest) := by
    rw [quote, List.cons_append, List.append_assoc, List.singleton_append]
  rw [htext, parseString, escape, hinner]
  rfl

theorem parseKey_quote (s : String) (rest : List Char) :
    parseKey (quote s ++ rest) = some (.quoted (escape s), rest) := by
  have hidentifier : parseIdentifier (quote s ++ rest) = none := rfl
  rw [parseKey, hidentifier, parseString_quote]
  rfl

theorem skip_append {s : String} {c : Char} {t : List Char} (hs : s.toList = c :: t)
    (hc : isBlank c = false) (cs : List Char) : skip (word s ++ cs) = word s ++ cs := by
  rw [word, hs]
  exact skip_cons hc

theorem skip_quote (s : String) (rest : List Char) : skip (quote s ++ rest) = quote s ++ rest :=
  skip_cons rfl

theorem token_append_ne {s s' : String} {c d : Char} {t u : List Char} (hs : s.toList = c :: t)
    (hs' : s'.toList = d :: u) (h : c ≠ d) (cs : List Char) : token s (word s' ++ cs) = none := by
  rw [token, word, hs, hs', if_neg]
  intro hprefix
  obtain ⟨v, hv⟩ := List.isPrefixOf_iff_prefix.mp hprefix
  exact h (List.cons.inj hv).1

theorem parseAttributesKey_quote {sep : String} {c : Char} {t : List Char}
    (hsep : sep.toList = c :: t) (hc : isBlank c = false) (k : String) (rest : List Char) :
    parseAttributesKey sep (word "attributes" ++ (word sep ++ (quote k ++ rest))) =
      some (.quoted (escape k), rest) := by
  unfold parseAttributesKey
  rw [token_append]
  simp only [Option.bind_eq_bind, Option.bind_some]
  rw [skip_append hsep hc, token_append, Option.bind_some, skip_quote, parseKey_quote]

theorem parseAttribute_quote (k : String) (rest : List Char) :
    parseAttribute (word "attributes" ++ (word "." ++ (quote k ++ rest))) =
      some (.quoted (escape k), rest) := parseAttributesKey_quote rfl rfl k rest

theorem parseCompareOp_text (op : CompareOp) (rest : List Char) :
    parseCompareOp (op.text ++ rest) = some (op, rest) := by
  cases op with
  | ne => rw [parseCompareOp, CompareOp.text, token_append]
  | eq =>
    rw [parseCompareOp, CompareOp.text, token_append_ne rfl rfl (by decide), token_append]
    rfl

theorem skip_op (op : CompareOp) (rest : List Char) : skip (op.text ++ rest) = op.text ++ rest := by
  cases op with
  | eq => exact skip_append rfl rfl rest
  | ne => exact skip_append rfl rfl rest

theorem parseComparison_text (k : String) (op : CompareOp) (v : String) (rest : List Char) :
    parseComparison ((Expr.compare k op v).text ++ rest) =
      some (.compare (.quoted (escape k)) op (escape v), rest) := by
  unfold parseComparison
  rw [Expr.text, List.append_assoc, List.append_assoc, List.append_assoc, List.append_assoc,
    parseAttribute_quote]
  simp only [Option.bind_eq_bind, Option.bind_some]
  rw [skip_op, parseCompareOp_text, Option.bind_some, skip_quote, parseString_quote]
  rfl

theorem parseHasAttr_text (k : String) (rest : List Char) :
    parseHasAttr ((Expr.hasAttr k).text ++ rest) = some (.hasAttr (.quoted (escape k)), rest) := by
  unfold parseHasAttr
  rw [Expr.text, List.append_assoc, List.append_assoc, parseAttributesKey_quote rfl rfl]
  rfl

theorem parseComparison_hasAttr (k : String) (rest : List Char) :
    parseComparison ((Expr.hasAttr k).text ++ rest) = none := by
  unfold parseComparison parseAttribute parseAttributesKey
  rw [Expr.text, List.append_assoc, List.append_assoc, token_append]
  simp only [Option.bind_eq_bind, Option.bind_some]
  rw [skip_append rfl rfl, token_append_ne rfl rfl (by decide)]
  rfl

theorem parseFunction_text (k p : String) (rest : List Char) :
    parseFunction ((Expr.hasPrefix k p).text ++ rest) =
      some (.hasPrefix (.quoted (escape k)) (escape p), rest) := by
  unfold parseFunction
  rw [Expr.text, List.append_assoc, List.append_assoc, List.append_assoc, List.append_assoc,
    List.append_assoc, List.append_assoc, List.append_assoc, token_append]
  simp only [Option.bind_eq_bind, Option.bind_some]
  rw [skip_append rfl rfl, token_append, Option.bind_some, skip_append rfl rfl,
    parseAttribute_quote]
  simp only [Option.bind_some]
  rw [skip_append rfl rfl, token_append, Option.bind_some, skip_quote, parseString_quote]
  simp only [Option.bind_some]
  rw [skip_append rfl rfl, token_append, Option.bind_some]

end Lexical

section Parsing

variable {p : Parse RawExpr} {e first : Expr} {es : List Expr} {rest tail : List Char}
  {c : Connective} {fuel n : Nat}

/-- The parser reads the text as the expression, whatever follows. -/
def Reads (p : Parse RawExpr) (text : List Char) (e : Expr) : Prop :=
  ∀ rest, ∃ raw, p (text ++ rest) = some (raw, rest) ∧ buildExpr raw = .ok e

def Ends (rest : List Char) : Prop := ∀ c : Connective, token c.keyword (skip rest) = none

/-- The parser reads the text of the expression, where no chain could go on. -/
def ReadsWhole (p : Parse RawExpr) (e : Expr) : Prop :=
  ∀ rest, Ends rest → ∃ raw, p (e.text ++ rest) = some (raw, rest) ∧ buildExpr raw = .ok e

theorem operand_of_compound (h : e.compound = true) :
    e.operand = word "(" ++ (e.text ++ word ")") := by
  rw [Expr.operand, Expr.enclose, if_pos h]

theorem operand_of_not_compound (h : e.compound = false) : e.operand = e.text := by
  rw [Expr.operand, Expr.enclose, h]
  rfl

theorem operand_start (e : Expr) : ∃ w cs, e.operand = word w ++ cs ∧
    (w = "attributes" ∨ w = "hasPrefix" ∨ w = "(") := by
  cases e with
  | compare => exact ⟨_, _, rfl, Or.inl rfl⟩
  | hasAttr => exact ⟨_, _, rfl, Or.inl rfl⟩
  | hasPrefix => exact ⟨_, _, rfl, Or.inr (Or.inl rfl)⟩
  | not => exact ⟨_, _, rfl, Or.inr (Or.inr rfl)⟩
  | and => exact ⟨_, _, rfl, Or.inr (Or.inr rfl)⟩
  | or => exact ⟨_, _, rfl, Or.inr (Or.inr rfl)⟩

theorem skip_operand (e : Expr) (cs : List Char) : skip (e.operand ++ cs) = e.operand ++ cs := by
  obtain ⟨w, u, h, rfl | rfl | rfl⟩ := operand_start e <;>
  · rw [h, List.append_assoc]
    exact skip_append rfl rfl _

theorem skip_space (cs : List Char) : skip (word " " ++ cs) = skip cs := rfl

theorem parseNegation_operand (e : Expr) (cs : List Char) :
    parseNegation (e.operand ++ cs) = none := by
  obtain ⟨w, u, h, rfl | rfl | rfl⟩ := operand_start e <;>
  · rw [h, List.append_assoc, parseNegation, token_append_ne rfl rfl (by decide)]
    exact token_append_ne rfl rfl (by decide) _

theorem parseComparison_none {cs : List Char} (h : token "attributes" cs = none) :
    parseComparison cs = none ∧ parseHasAttr cs = none := by
  unfold parseComparison parseHasAttr parseAttribute parseAttributesKey
  rw [h]
  exact ⟨rfl, rfl⟩

theorem skip_text (h : e.Proper) (cs : List Char) : skip (e.text ++ cs) = e.text ++ cs := by
  have hchain : ∀ (c : Connective) (es : List Expr), 2 ≤ es.length →
      skip ((c.node es).text ++ cs) = (c.node es).text ++ cs := by
    intro c es hlen
    cases es with
    | nil => cases hlen
    | cons first es =>
      rw [Connective.text_node, flatText, List.append_assoc]
      exact skip_operand first _
  cases e with
  | and es => exact hchain .and es h.1
  | or es => exact hchain .or es h.1
  | not e =>
    rw [Expr.text, List.append_assoc]
    exact skip_append rfl rfl _
  | _ =>
    rw [← operand_of_not_compound rfl]
    exact skip_operand _ cs

theorem ends_nil : Ends [] := fun c => by cases c <;> rfl

theorem ends_paren (cs : List Char) : Ends (word ")" ++ cs) := by
  intro c
  rw [skip_append rfl rfl]
  cases c with
  | and => exact token_append_ne rfl rfl (by decide) cs
  | or => exact token_append_ne rfl rfl (by decide) cs

theorem parsePrimary_operand (hproper : e.Proper) (hp : e.compound = true → ReadsWhole p e) :
    Reads (parsePrimary p) e.operand e := by
  intro rest
  have hcompound : e.compound = true →
      ∃ raw, parsePrimary p (e.operand ++ rest) = some (raw, rest) ∧ buildExpr raw = .ok e := by
    intro h
    obtain ⟨raw, hraw, hbuild⟩ := hp h (word ")" ++ rest) (ends_paren rest)
    refine ⟨raw, ?_, hbuild⟩
    have hnone : token "attributes" (word "(" ++ (e.text ++ (word ")" ++ rest))) = none :=
      token_append_ne rfl rfl (by decide) _
    have hfunction : parseFunction (word "(" ++ (e.text ++ (word ")" ++ rest))) = none := by
      unfold parseFunction
      rw [token_append_ne rfl rfl (by decide)]
      rfl
    rw [operand_of_compound h, List.append_assoc, List.append_assoc, parsePrimary,
      (parseComparison_none hnone).1, (parseComparison_none hnone).2, hfunction]
    simp only [parseParens]
    rw [token_append]
    simp only [Option.bind_eq_bind, Option.bind_some]
    rw [skip_text hproper, hraw]
    simp only [Option.bind_some]
    rw [skip_append rfl rfl, token_append]
    rfl
  cases e with
  | compare k op v =>
    refine ⟨.compare (.quoted (escape k)) op (escape v), ?_, ?_⟩
    · rw [operand_of_not_compound rfl, parsePrimary, parseComparison_text]
    · rw [buildExpr, buildKey, buildString_escape, buildString_escape]
      rfl
  | hasAttr k =>
    refine ⟨.hasAttr (.quoted (escape k)), ?_, ?_⟩
    · rw [operand_of_not_compound rfl, parsePrimary, parseComparison_hasAttr, parseHasAttr_text]
    · rw [buildExpr, buildKey, buildString_escape]
      rfl
  | hasPrefix k start =>
    have hnone : token "attributes" ((Expr.hasPrefix k start).text ++ rest) = none := by
      rw [Expr.text, List.append_assoc]
      exact token_append_ne rfl rfl (by decide) _
    refine ⟨.hasPrefix (.quoted (escape k)) (escape start), ?_, ?_⟩
    · rw [operand_of_not_compound rfl, parsePrimary, (parseComparison_none hnone).1,
        (parseComparison_none hnone).2, parseFunction_text]
    · rw [buildExpr, buildKey, buildString_escape, buildString_escape]
      rfl
  | not => exact hcompound rfl
  | and => exact hcompound rfl
  | or => exact hcompound rfl

theorem parseUnary_operand (h : Reads (parsePrimary p) e.operand e) :
    Reads (parseUnary p) e.operand e := by
  intro rest
  rw [parseUnary, parseNegation_operand, skip_operand]
  exact h rest

theorem parseUnary_not (h : Reads (parsePrimary p) e.operand e) :
    Reads (parseUnary p) (Expr.not e).text (.not e) := by
  intro rest
  obtain ⟨raw, hraw, hbuild⟩ := h rest
  have hnegation : parseNegation (word "NOT" ++ (word " " ++ (e.operand ++ rest))) =
      some (e.operand ++ rest) := by
    rw [parseNegation, token_append]
    change some (skip (e.operand ++ rest)) = _
    rw [skip_operand]
  refine ⟨.not raw, ?_, ?_⟩
  · rw [Expr.text, List.append_assoc, List.append_assoc, ← Expr.operand, parseUnary, hnegation]
    simp only [skip_operand, hraw]
    rfl
  · rw [buildExpr, hbuild]
    rfl

theorem parseChain_none {keyword : String} {unary : Parse RawExpr} {cs : List Char}
    (h : token keyword (skip cs) = none) : parseChain keyword unary cs = none := by
  unfold parseChain
  cases hn : cs.length with
  | zero => rw [parseMany]
  | succ n =>
    rw [parseMany, h]
    rfl

theorem parseMany_chain {unary : Parse RawExpr} (hu : ∀ e ∈ es, Reads unary e.operand e)
    (htail : token c.keyword (skip tail) = none) (hn : es.length ≤ n) :
    ∃ raws, parseMany c.keyword unary n (chainText (es.map fun e => (c, e.operand)) ++ tail) =
      (raws, tail) ∧ buildExprs raws = .ok es := by
  induction es generalizing n with
  | nil =>
    refine ⟨[], ?_, by rw [buildExprs]⟩
    cases n with
    | zero => rfl
    | succ n =>
      change parseMany c.keyword unary (n + 1) tail = _
      rw [parseMany, htail]
      rfl
  | cons e es ih =>
    cases n with
    | zero => cases hn
    | succ n =>
      obtain ⟨raws, hraws, hbuilds⟩ := ih (fun x hx => hu x (List.mem_cons_of_mem _ hx))
        (Nat.le_of_succ_le_succ hn)
      obtain ⟨raw, hraw, hbuild⟩ := hu e List.mem_cons_self
        (chainText (es.map fun e => (c, e.operand)) ++ tail)
      have hkeyword : ∀ cs, skip (word c.keyword ++ cs) = word c.keyword ++ cs := by
        cases c with
        | and => exact skip_append rfl rfl
        | or => exact skip_append rfl rfl
      have htext : chainText ((e :: es).map fun e => (c, e.operand)) ++ tail =
          word " " ++ (word c.keyword ++ (word " " ++ (e.operand ++
            (chainText (es.map fun e => (c, e.operand)) ++ tail)))) := by
        rw [List.map_cons, chainText, List.flatMap_cons, List.append_assoc, List.append_assoc,
          List.append_assoc, List.append_assoc]
        rfl
      refine ⟨raw :: raws, ?_, ?_⟩
      · rw [htext, parseMany, skip_space, hkeyword, token_append]
        simp only [Option.bind_some]
        rw [skip_space, skip_operand, hraw]
        simp only [hraws]
      · rw [buildExprs, hbuild, hbuilds]
        rfl

theorem length_le_chainText (operands : List (Connective × List Char)) :
    operands.length ≤ (chainText operands).length := by
  induction operands with
  | nil => exact Nat.le_refl 0
  | cons o operands ih =>
    have hone : (word " ").length = 1 := rfl
    rw [chainText, List.flatMap_cons, List.length_append, List.length_append, hone,
      List.length_cons]
    unfold chainText at ih
    omega

theorem parseExpr_single {text : List Char} (h : Reads (parseUnary (parseExpr fuel)) text e)
    (hends : Ends rest) : ∃ raw, parseExpr (fuel + 1) (text ++ rest) = some (raw, rest) ∧
      buildExpr raw = .ok e := by
  obtain ⟨raw, hraw, hbuild⟩ := h rest
  have hand : parseChain "AND" (parseUnary (parseExpr fuel)) rest = none :=
    parseChain_none (hends .and)
  have hor : parseChain "OR" (parseUnary (parseExpr fuel)) rest = none :=
    parseChain_none (hends .or)
  refine ⟨raw, ?_, hbuild⟩
  rw [parseExpr, hraw]
  simp only [Option.bind_eq_bind, Option.bind_some]
  rw [hand, hor]

theorem parseChain_chain {unary : Parse RawExpr} (hes : es ≠ [])
    (hu : ∀ e ∈ es, Reads unary e.operand e) (htail : token c.keyword (skip tail) = none) :
    ∃ raws, parseChain c.keyword unary (chainText (es.map fun e => (c, e.operand)) ++ tail) =
      some (raws, tail) ∧ buildExprs raws = .ok es := by
  have hlength : es.length ≤ (chainText (es.map fun e => (c, e.operand)) ++ tail).length := by
    have hle := length_le_chainText (es.map fun e => (c, e.operand))
    rw [List.length_map] at hle
    rw [List.length_append]
    omega
  obtain ⟨raws, hraws, hbuilds⟩ := parseMany_chain hu htail hlength
  refine ⟨raws, ?_, hbuilds⟩
  rw [parseChain, hraws]
  cases raws with
  | nil =>
    rw [buildExprs] at hbuilds
    exact absurd (Except.ok.inj hbuilds).symm hes
  | cons raw raws => rfl

theorem parseExpr_chain (hes : es ≠ [])
    (hu : ∀ e ∈ first :: es, Reads (parseUnary (parseExpr fuel)) e.operand e)
    (htail : token c.keyword (skip tail) = none) :
    ∃ raw, parseExpr (fuel + 1)
        (first.operand ++ (chainText (es.map fun e => (c, e.operand)) ++ tail)) =
      some (raw, tail) ∧ buildExpr raw = .ok (c.node (first :: es)) := by
  obtain ⟨raw, hraw, hbuild⟩ := hu first List.mem_cons_self
    (chainText (es.map fun e => (c, e.operand)) ++ tail)
  obtain ⟨raws, hraws, hbuilds⟩ := parseChain_chain hes
    (fun e he => hu e (List.mem_cons_of_mem _ he)) htail
  cases c with
  | and =>
    have hand : parseChain "AND" (parseUnary (parseExpr fuel)) _ = _ := hraws
    refine ⟨.and (raw :: raws), ?_, ?_⟩
    · rw [parseExpr, hraw]
      simp only [Option.bind_eq_bind, Option.bind_some]
      rw [hand]
    · rw [buildExpr, buildExprs, hbuild, hbuilds]
      rfl
  | or =>
    have hor : parseChain "OR" (parseUnary (parseExpr fuel)) _ = _ := hraws
    have hstart : token "AND" (skip (chainText (es.map fun e => (Connective.or, e.operand)) ++
        tail)) = none := by
      obtain ⟨e, es, rfl⟩ := List.exists_cons_of_ne_nil hes
      rw [List.map_cons, chainText, List.flatMap_cons, List.append_assoc, List.append_assoc,
        List.append_assoc, skip_space, Connective.keyword, skip_append rfl rfl]
      exact token_append_ne rfl rfl (by decide) _
    have hand : parseChain "AND" (parseUnary (parseExpr fuel)) _ = none :=
      parseChain_none hstart
    refine ⟨.or (raw :: raws), ?_, ?_⟩
    · rw [parseExpr, hraw]
      simp only [Option.bind_eq_bind, Option.bind_some]
      rw [hand, hor]
    · rw [buildExpr, buildExprs, hbuild, hbuilds]
      rfl

theorem length_text_lt (h : e.compound = true) : e.text.length < e.operand.length := by
  rw [operand_of_compound h, List.length_append, List.length_append]
  have hopen : (word "(").length = 1 := rfl
  omega

theorem length_operand_le (o : Connective × Expr) (operands : List (Connective × Expr))
    (h : o ∈ operands) :
    o.2.operand.length ≤ (chainText (operands.map fun o => (o.1, o.2.operand))).length := by
  obtain ⟨before, after, rfl⟩ := List.append_of_mem h
  rw [List.map_append, List.map_cons, chainText, List.flatMap_append, List.flatMap_cons]
  simp only [List.length_append]
  omega

/-- Nested levels: the fuel exceeds the text, and each pair of parentheses takes from both. -/
theorem reads_whole (hproper : e.Proper) (hfuel : e.text.length < fuel) :
    ReadsWhole (parseExpr fuel) e := by
  induction fuel generalizing e with
  | zero => cases hfuel
  | succ fuel ih =>
    have hprimary : ∀ x : Expr, x.Proper → x.operand.length ≤ fuel →
        Reads (parsePrimary (parseExpr fuel)) x.operand x := by
      intro x hx hlength
      refine parsePrimary_operand hx fun hcompound => ih hx ?_
      have hlt := length_text_lt hcompound
      omega
    have hchain : ∀ (c : Connective) (es : List Expr), 2 ≤ es.length → (∀ x ∈ es, x.Proper) →
        (c.node es).text.length ≤ fuel → ReadsWhole (parseExpr (fuel + 1)) (c.node es) := by
      intro c es hlen hes htext rest hends
      cases es with
      | nil => cases hlen
      | cons first es =>
        rw [Connective.text_node, flatText, List.map_map, List.length_append] at htext
        rw [Connective.text_node, flatText, List.map_map, List.append_assoc]
        refine parseExpr_chain (List.ne_nil_of_length_pos (Nat.le_of_succ_le_succ hlen))
          (fun x hx => ?_) (hends c)
        refine parseUnary_operand (hprimary x (hes x hx) ?_)
        rcases List.mem_cons.mp hx with rfl | hx
        · omega
        · have hle := length_operand_le (c, x) (es.map fun e => (c, e))
            (List.mem_map_of_mem hx)
          rw [List.map_map] at hle
          simp only [] at hle
          omega
    have hsimple : e.compound = false → ReadsWhole (parseExpr (fuel + 1)) e := by
      intro h rest hends
      have hread := parseUnary_operand (hprimary e hproper
        (operand_of_not_compound h ▸ Nat.le_of_lt_succ hfuel))
      rw [operand_of_not_compound h] at hread
      exact parseExpr_single hread hends
    cases e with
    | compare => exact hsimple rfl
    | hasAttr => exact hsimple rfl
    | hasPrefix => exact hsimple rfl
    | and es =>
      exact hchain .and es hproper.1 (Expr.allProper_iff.mp hproper.2) (Nat.le_of_lt_succ hfuel)
    | or es =>
      exact hchain .or es hproper.1 (Expr.allProper_iff.mp hproper.2) (Nat.le_of_lt_succ hfuel)
    | not x =>
      have hlength : x.operand.length ≤ fuel := by
        rw [Expr.text, List.length_append, List.length_append, ← Expr.operand] at hfuel
        omega
      intro rest hends
      exact parseExpr_single (parseUnary_not (hprimary x hproper hlength)) hends

theorem chainText_append (before after : List (Connective × List Char)) :
    chainText (before ++ after) = chainText before ++ chainText after := List.flatMap_append

theorem chainText_cons (c d : Connective) (text : List Char)
    (operands : List (Connective × List Char)) : token c.keyword
      (skip (chainText ((d, text) :: operands))) =
        if c = d then some (word " " ++ (text ++ chainText operands)) else none := by
  rw [chainText, List.flatMap_cons, List.append_assoc, List.append_assoc, List.append_assoc,
    skip_space]
  cases c with
  | and =>
    cases d with
    | and =>
      rw [Connective.keyword, skip_append rfl rfl, token_append]
      rfl
    | or =>
      rw [Connective.keyword, Connective.keyword, skip_append rfl rfl]
      exact token_append_ne rfl rfl (by decide) _
  | or =>
    cases d with
    | or =>
      rw [Connective.keyword, skip_append rfl rfl, token_append]
      rfl
    | and =>
      rw [Connective.keyword, Connective.keyword, skip_append rfl rfl]
      exact token_append_ne rfl rfl (by decide) _

end Parsing

section Filters

variable {e first : Expr} {es : List Expr} {c : Connective} {rest after : List (Connective × Expr)}

/-- The text of operands without parentheses reads up to the first other connective. -/
theorem parseExpr_flat {fuel : Nat} (hes : es ≠ []) (hproper : ∀ e ∈ first :: es, e.Proper)
    (hafter : ∀ o, after.head? = some o → o.1 ≠ c)
    (hfuel : (flatText first (es.map (fun e => (c, e)) ++ after)).length ≤ fuel) :
    ∃ raw, parseExpr (fuel + 1) (flatText first (es.map (fun e => (c, e)) ++ after)) =
        some (raw, chainText (after.map fun o => (o.1, o.2.operand))) ∧
      buildExpr raw = .ok (c.node (first :: es)) := by
  rw [flatText, List.map_append, List.map_map, chainText_append] at hfuel ⊢
  rw [List.length_append, List.length_append] at hfuel
  have htail : token c.keyword (skip (chainText (after.map fun o => (o.1, o.2.operand)))) =
      none := by
    cases after with
    | nil => exact ends_nil c
    | cons o after => rw [List.map_cons, chainText_cons, if_neg (Ne.symm (hafter o rfl))]
  refine parseExpr_chain hes (fun x hx => parseUnary_operand ?_) htail
  refine parsePrimary_operand (hproper x hx) fun hcompound => reads_whole (hproper x hx) ?_
  have hlt := length_text_lt hcompound
  rcases List.mem_cons.mp hx with rfl | hx
  · omega
  · have hle := length_operand_le (c, x) (es.map fun e => (c, e)) (List.mem_map_of_mem hx)
    rw [List.map_map] at hle
    simp only [] at hle
    omega

theorem parseFilter_ofList {cs tail : List Char} {raw : RawExpr} (hskip : skip cs = cs)
    (hlength : cs.length ≤ maxFilterChars)
    (hraw : parseExpr (cs.length + 1) cs = some (raw, tail)) :
    parseFilter (String.ofList cs) =
      if (skip tail).isEmpty then buildExpr raw else .error (invalidFilter "syntax error") := by
  rw [parseFilter, String.length_ofList, String.toList_ofList, hskip,
    if_neg (Nat.not_lt.mpr hlength), hraw]

theorem parseFilter_render (hproper : e.Proper) (hlength : e.render.length ≤ maxFilterChars) :
    parseFilter e.render = .ok e := by
  rw [Expr.render, String.length_ofList] at hlength
  obtain ⟨raw, hraw, hbuild⟩ := reads_whole hproper (Nat.lt_succ_self _) [] ends_nil
  have hskip := skip_text hproper []
  rw [List.append_nil] at hraw hskip
  rw [Expr.render, parseFilter_ofList hskip hlength hraw]
  exact hbuild

theorem exists_split (hrest : rest ≠ []) : ∃ c es after, es ≠ [] ∧
    rest = es.map (fun e => (c, e)) ++ after ∧ ∀ o, after.head? = some o → o.1 ≠ c := by
  obtain ⟨⟨c, e⟩, more, rfl⟩ := List.exists_cons_of_ne_nil hrest
  have hsame : ∀ o ∈ more.takeWhile (fun o => o.1 = c), o = (c, o.2) := by
    intro o ho
    have hc := List.all_eq_true.mp List.all_takeWhile o ho
    rw [← of_decide_eq_true hc]
  refine ⟨c, e :: (more.takeWhile (fun o => o.1 = c)).map Prod.snd,
    more.dropWhile (fun o => o.1 = c), by simp, ?_, ?_⟩
  · rw [List.map_cons, List.map_map, List.cons_append]
    have hmap : (more.takeWhile (fun o => o.1 = c)).map ((fun e => (c, e)) ∘ Prod.snd) =
        more.takeWhile (fun o => o.1 = c) :=
      (List.map_congr_left fun o ho => (hsame o ho).symm).trans (List.map_id _)
    rw [hmap, List.takeWhile_append_dropWhile]
  · intro o ho
    have hne := List.head?_dropWhile_not (fun o : Connective × Expr => decide (o.1 = c)) more
    rw [ho] at hne
    exact of_decide_eq_false hne

theorem parseFilter_flat (hes : es ≠ []) (hproper : ∀ e ∈ first :: es, e.Proper)
    (hafter : ∀ o, after.head? = some o → o.1 ≠ c)
    (hlength : (flatText first (es.map (fun e => (c, e)) ++ after)).length ≤ maxFilterChars) :
    parseFilter (String.ofList (flatText first (es.map (fun e => (c, e)) ++ after))) =
      if after = [] then .ok (c.node (first :: es))
      else .error (invalidFilter "syntax error") := by
  obtain ⟨raw, hraw, hbuild⟩ := parseExpr_flat hes hproper hafter (Nat.le_refl _)
  have hskip : skip (flatText first (es.map (fun e => (c, e)) ++ after)) = flatText first _ :=
    skip_operand first _
  rw [parseFilter_ofList hskip hlength hraw, hbuild]
  cases after with
  | nil => rfl
  | cons o after =>
    have hsome := chainText_cons o.1 o.1 o.2.operand (after.map fun o => (o.1, o.2.operand))
    rw [if_pos rfl] at hsome
    rw [List.map_cons, if_neg (by simp : o :: after ≠ []), if_neg]
    intro hempty
    rw [List.isEmpty_iff.mp hempty] at hsome
    cases ho : o.1 <;> rw [ho] at hsome <;> cases hsome

theorem same_connective_iff (hes : es ≠ []) (hafter : ∀ o, after.head? = some o → o.1 ≠ c) :
    (∃ d, ∀ o ∈ es.map (fun e => (c, e)) ++ after, o.1 = d) ↔ after = [] := by
  constructor
  · rintro ⟨d, hd⟩
    obtain ⟨e, es, rfl⟩ := List.exists_cons_of_ne_nil hes
    have hcd : c = d := hd (c, e) List.mem_cons_self
    cases after with
    | nil => rfl
    | cons o after =>
      exact absurd ((hd o (List.mem_append_right _ List.mem_cons_self)).trans hcd.symm)
        (hafter o rfl)
  · rintro rfl
    refine ⟨c, fun o ho => ?_⟩
    rw [List.append_nil] at ho
    obtain ⟨e, _, rfl⟩ := List.mem_map.mp ho
    rfl

/-- A rendered filter parses back, and operands without parentheses parse exactly when
one connective joins them. -/
theorem filter_text_parses :
    (∀ e : Expr, e.Proper → e.render.length ≤ maxFilterChars → parseFilter e.render = .ok e) ∧
    ∀ (first : Expr) (rest : List (Connective × Expr)), rest ≠ [] →
      (∀ e ∈ first :: rest.map Prod.snd, e.Proper) →
      (flatText first rest).length ≤ maxFilterChars →
      ((∃ parsed, parseFilter (String.ofList (flatText first rest)) = .ok parsed) ↔
        ∃ c, ∀ o ∈ rest, o.1 = c) ∧
      (∀ c, (∀ o ∈ rest, o.1 = c) → parseFilter (String.ofList (flatText first rest)) =
        .ok (c.node (first :: rest.map Prod.snd))) ∧
      ((¬ ∃ c, ∀ o ∈ rest, o.1 = c) → ∃ message,
        parseFilter (String.ofList (flatText first rest)) =
          .error (.invalidArgument "filter" message)) := by
  refine ⟨fun e => parseFilter_render, fun first rest hrest hproper hlength => ?_⟩
  obtain ⟨c, es, after, hes, rfl, hafter⟩ := exists_split hrest
  have hsnd : (es.map (fun e => (c, e)) ++ after).map Prod.snd = es ++ after.map Prod.snd := by
    rw [List.map_append, List.map_map]
    exact congrArg (· ++ _) (List.map_id es)
  rw [hsnd, ← List.cons_append] at hproper
  rw [hsnd, parseFilter_flat hes (fun e he => hproper e (List.mem_append_left _ he)) hafter hlength]
  have hiff := same_connective_iff hes hafter
  by_cases hnil : after = []
  · subst hnil
    rw [if_pos rfl]
    refine ⟨⟨fun _ => hiff.mpr rfl, fun _ => ⟨_, rfl⟩⟩, ?_, fun h => absurd (hiff.mpr rfl) h⟩
    intro d hd
    obtain ⟨e, es, rfl⟩ := List.exists_cons_of_ne_nil hes
    have hcd : c = d := hd (c, e) List.mem_cons_self
    rw [hcd, List.map_nil, List.append_nil]
  · rw [if_neg hnil]
    refine ⟨⟨?_, fun h => absurd (hiff.mp h) hnil⟩, ?_, fun _ => ⟨_, rfl⟩⟩
    · rintro ⟨parsed, hparsed⟩
      cases hparsed
    · intro d hd
      exact absurd (hiff.mp ⟨d, hd⟩) hnil

end Filters

theorem filter_text_parses_nested :
    parseFilter (Expr.not (.or [.compare "k\"" .ne "v", .not (.hasPrefix "b" "c")])).render =
      .ok (.not (.or [.compare "k\"" .ne "v", .not (.hasPrefix "b" "c")])) ∧
    ∃ message, parseFilter (String.ofList
        (flatText (.hasAttr "a") [(.and, .hasAttr "b"), (.or, .not (.hasAttr "c"))])) =
      .error (.invalidArgument "filter" message) := by
  refine ⟨filter_text_parses.1 _ ⟨by decide, trivial, trivial, trivial⟩ (by decide), ?_⟩
  refine (filter_text_parses.2 _ _ (by decide) ?_ (by decide)).2.2 ?_
  · intro e he
    simp only [List.map_cons, List.map_nil, List.mem_cons, List.not_mem_nil, or_false] at he
    rcases he with rfl | rfl | rfl <;> trivial
  · rintro ⟨c, hc⟩
    have hand := hc (.and, .hasAttr "b") (by simp)
    have hor := hc (.or, .not (.hasAttr "c")) (by simp)
    cases hand.trans hor.symm

end OpenPubusb
