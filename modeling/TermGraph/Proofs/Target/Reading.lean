import TermGraph.Proofs.Target.Tokens

/-!
# Reading expressions back

`readExpr` reads an expression from the front of a list of tokens and returns what
follows it.  From the tokens of a readable expression it recovers the expression
with directly nested function types, and directly nested bindings, joined into one;
texts of expressions are therefore equal only for expressions that agree up to this.

An argument, a domain in parentheses and the head of an application are read the same
way, as an operand.  What follows an operand decides about the rest: further operands
are its arguments, and an arrow makes all of it a domain.
-/

namespace TermGraph

namespace Target

namespace Expr

/-! ## Joining nested binders -/

/-- A function type with one more binder in front. -/
def consPi (b : PiBinder Expr) : Expr → Expr
  | pi binders body => pi (b :: binders) body
  | body => pi [b] body

/-- Bindings with one more in front. -/
def consLet (b : Binding Expr) : Expr → Expr
  | letIn bindings body => letIn (b :: bindings) body
  | body => letIn [b] body

mutual

/-- The expression with directly nested function types, and directly nested bindings,
joined into one. -/
def merged : Expr → Expr
  | var x => var x
  | explicitVar x => explicitVar x
  | app fn args => app (merged fn) (mergedList args)
  | lam binders body => lam (mergedBinders binders) (merged body)
  | pi binders body => mergedPi binders (merged body)
  | letIn bindings body => mergedLet bindings (merged body)
  | ite c t e => ite (merged c) (merged t) (merged e)
  | sort level => sort level
  | nat n => nat n
  | string s => string s
  | list elems => list (mergedList elems)
  | ascription e ty => ascription (merged e) (merged ty)

/-- `merged` of several expressions. -/
def mergedList : List Expr → List Expr
  | [] => []
  | e :: rest => merged e :: mergedList rest

/-- `merged` of the types of binders. -/
def mergedBinders : List (Binder Expr) → List (Binder Expr)
  | [] => []
  | ⟨x, ty, implicit⟩ :: rest => ⟨x, merged ty, implicit⟩ :: mergedBinders rest

/-- Binders of a function type, with `merged` types, joined with those of its target. -/
def mergedPi : List (PiBinder Expr) → Expr → Expr
  | [], body => body
  | ⟨x, ty, implicit⟩ :: rest, body => consPi ⟨x, merged ty, implicit⟩ (mergedPi rest body)

/-- Bindings, with `merged` types and values, joined with those of their body. -/
def mergedLet : List (Binding Expr) → Expr → Expr
  | [], body => body
  | ⟨x, none, v⟩ :: rest, body => consLet ⟨x, none, merged v⟩ (mergedLet rest body)
  | ⟨x, some ty, v⟩ :: rest, body =>
      consLet ⟨x, some (merged ty), merged v⟩ (mergedLet rest body)

end

end Expr

/-! ## The reader -/

/-- Whether an operand starts with a token. -/
def Token.opensOperand : Token → Bool
  | name _ | number _ | string _ | kwType | openParen | openBracket | .at => true
  | _ => false

/-- What is left of a list of tokens behind given ones. -/
def expect : List Token → List Token → Option (List Token)
  | [], ts => some ts
  | t :: front, u :: ts => if t = u then expect front ts else none
  | _ :: _, [] => none

/-- An operand applied to the operands behind it; a level is no argument. -/
def spine : Expr → List Expr → Expr
  | fn, [] => fn
  | .sort 0, [.nat level] => .sort level
  | fn, args => .app fn args

mutual

/-- Reads an expression. -/
def readExpr : Nat → List Token → Option (Expr × List Token)
  | 0, _ => none
  | n + 1, .kwFun :: ts => do
      let (binders, ts) ← readBinders n ts
      let (body, ts) ← readExpr n ts
      return (.lam binders body, ts)
  | n + 1, .kwLet :: .name x :: .colon :: .equals :: ts => do
      let (v, ts) ← readExpr n ts
      let ts ← expect [.semicolon] ts
      let (body, ts) ← readExpr n ts
      return (Expr.consLet ⟨x, none, v⟩ body, ts)
  | n + 1, .kwLet :: .name x :: .colon :: ts => do
      let (ty, ts) ← readExpr n ts
      let ts ← expect [.colon, .equals] ts
      let (v, ts) ← readExpr n ts
      let ts ← expect [.semicolon] ts
      let (body, ts) ← readExpr n ts
      return (Expr.consLet ⟨x, some ty, v⟩ body, ts)
  | n + 1, .kwIf :: ts => do
      let (c, ts) ← readExpr n ts
      let ts ← expect [.kwThen] ts
      let (t, ts) ← readExpr n ts
      let ts ← expect [.kwElse] ts
      let (e, ts) ← readExpr n ts
      return (.ite c t e, ts)
  | n + 1, .openBrace :: .name x :: .colon :: ts => do
      let (ty, ts) ← readExpr n ts
      let ts ← expect [.closeBrace, .arrow] ts
      let (body, ts) ← readExpr n ts
      return (Expr.consPi ⟨some x, ty, true⟩ body, ts)
  | n + 1, .openParen :: ts => do
      let (e, ts) ← readExpr n ts
      match ts with
      | .closeParen :: ts => readSpine n e ts
      | .colon :: ts =>
          match e with
          | .var x => do
              let (ty, ts) ← readExpr n ts
              let ts ← expect [.closeParen, .arrow] ts
              let (body, ts) ← readExpr n ts
              return (Expr.consPi ⟨some x, ty, false⟩ body, ts)
          | _ => none
      | _ => none
  | n + 1, ts => do
      let (e, ts) ← readOperand n ts
      readSpine n e ts

/-- Reads the arguments of an operand and what follows. -/
def readSpine : Nat → Expr → List Token → Option (Expr × List Token)
  | 0, _, _ => none
  | n + 1, fn, ts => do
      let (args, ts) ← readArgs n ts
      readArrow n (spine fn args) ts

/-- Reads the target of an arrow, if there is one. -/
def readArrow : Nat → Expr → List Token → Option (Expr × List Token)
  | 0, _, _ => none
  | n + 1, e, .arrow :: ts => do
      let (body, ts) ← readExpr n ts
      return (Expr.consPi ⟨none, e, false⟩ body, ts)
  | _ + 1, e, ts => some (e, ts)

/-- Reads an operand. -/
def readOperand : Nat → List Token → Option (Expr × List Token)
  | 0, _ => none
  | _ + 1, .name x :: ts => some (.var x, ts)
  | _ + 1, .at :: .name x :: ts => some (.explicitVar x, ts)
  | _ + 1, .number n :: ts => some (.nat n, ts)
  | _ + 1, .string s :: ts => some (.string s, ts)
  | _ + 1, .kwType :: ts => some (.sort 0, ts)
  | n + 1, .openBracket :: ts => do
      let (elems, ts) ← readElems n ts
      return (.list elems, ts)
  | n + 1, .openParen :: ts => do
      let (e, ts) ← readExpr n ts
      let ts ← expect [.closeParen] ts
      return (e, ts)
  | _ + 1, _ => none

/-- Reads operands as long as there are any. -/
def readArgs : Nat → List Token → Option (List Expr × List Token)
  | 0, _ => none
  | _ + 1, [] => some ([], [])
  | n + 1, t :: ts =>
      if t.opensOperand then do
        let (e, ts) ← readOperand n (t :: ts)
        let (args, ts) ← readArgs n ts
        return (e :: args, ts)
      else some ([], t :: ts)

/-- Reads the elements of a list and the bracket that ends it. -/
def readElems : Nat → List Token → Option (List Expr × List Token)
  | 0, _ => none
  | _ + 1, .closeBracket :: ts => some ([], ts)
  | n + 1, ts => do
      let (e, ts) ← readExpr n ts
      match ts with
      | .comma :: ts => do
          let (elems, ts) ← readElems n ts
          return (e :: elems, ts)
      | .closeBracket :: ts => some ([e], ts)
      | _ => none

/-- Reads the binders of a function and the arrow that ends them. -/
def readBinders : Nat → List Token → Option (List (Binder Expr) × List Token)
  | 0, _ => none
  | _ + 1, .equals :: .greater :: ts => some ([], ts)
  | n + 1, .openBrace :: .name x :: .colon :: ts => do
      let (ty, ts) ← readExpr n ts
      let ts ← expect [.closeBrace] ts
      let (binders, ts) ← readBinders n ts
      return (⟨x, ty, true⟩ :: binders, ts)
  | n + 1, .openParen :: .name x :: .colon :: ts => do
      let (ty, ts) ← readExpr n ts
      let ts ← expect [.closeParen] ts
      let (binders, ts) ← readBinders n ts
      return (⟨x, ty, false⟩ :: binders, ts)
  | _ + 1, _ => none

end

/-! ## What follows an expression -/

/-- A list of tokens that no operand follows on. -/
def Closes (rest : List Token) : Prop :=
  ∀ t ∈ rest.head?, t.opensOperand = false

/-- A list of tokens that goes on with neither an operand nor an arrow. -/
def Ends (rest : List Token) : Prop :=
  ∀ t ∈ rest.head?, t.opensOperand = false ∧ t ≠ .arrow

@[simp] theorem closes_nil : Closes [] := by simp [Closes]

@[simp] theorem closes_cons {t : Token} {rest : List Token} :
    Closes (t :: rest) ↔ t.opensOperand = false := by simp [Closes]

@[simp] theorem ends_nil : Ends [] := by simp [Ends]

@[simp] theorem ends_cons {t : Token} {rest : List Token} :
    Ends (t :: rest) ↔ t.opensOperand = false ∧ t ≠ .arrow := by simp [Ends]

theorem Ends.closes {rest : List Token} (h : Ends rest) : Closes rest :=
  fun t ht => (h t ht).1

theorem readArrow_of_ends (n : Nat) (e : Expr) {rest : List Token} (h : Ends rest) :
    readArrow (n + 1) e rest = some (e, rest) := by
  cases rest with
  | nil => simp [readArrow]
  | cons t rest =>
      have ht := (ends_cons.mp h).2
      cases t <;> first | exact absurd rfl ht | simp [readArrow]

theorem readArgs_of_closes (n : Nat) {rest : List Token} (h : Closes rest) :
    readArgs (n + 1) rest = some ([], rest) := by
  cases rest with
  | nil => simp [readArgs]
  | cons t rest => simp [readArgs, closes_cons.mp h]

/-! ## Steps of the reader -/

/-- That tokens are read as an expression wherever it ends behind them. -/
def ReadsExpr (ts : List Token) (e : Expr) : Prop :=
  ∀ n rest, 2 * ts.length + 1 ≤ n → Ends rest → readExpr n (ts ++ rest) = some (e, rest)

/-- That tokens are read as an operand whatever follows. -/
def ReadsOperand (ts : List Token) (e : Expr) : Prop :=
  ∀ n rest, 2 * ts.length ≤ n → readOperand n (ts ++ rest) = some (e, rest)

/-- That tokens are read as an operand with all its arguments, so that an arrow behind
them makes them a domain. -/
def ReadsDomain (ts : List Token) (e : Expr) : Prop :=
  ∀ n rest, 2 * ts.length ≤ n + 1 → Closes rest →
    readExpr (n + 2) (ts ++ rest) = readArrow n e rest

section Steps

variable {n : Nat} {x : String} {e fn ty v body : Expr} {args elems : List Expr}
  {ts us vs ws rest : List Token} {b : PiBinder Expr}

/-- No expression starts with an equality sign or a closing bracket. -/
theorem head_ne_of_readExpr {r : Expr × List Token} (h : readExpr n ts = some r) :
    ts.head? ≠ some .equals ∧ ts.head? ≠ some .closeBracket := by
  cases ts with
  | nil => simp
  | cons t ts =>
      cases n with
      | zero => simp [readExpr] at h
      | succ n =>
          cases n with
          | zero => cases t <;> simp [readExpr, readOperand] at h ⊢
          | succ n => cases t <;> simp [readExpr, readOperand] at h ⊢

theorem readExpr_typedLet (hty : readExpr n ts = some (ty, .colon :: .equals :: us))
    (hv : readExpr n us = some (v, .semicolon :: vs))
    (hbody : readExpr n vs = some (body, ws)) :
    readExpr (n + 1) (.kwLet :: .name x :: .colon :: ts) =
      some (Expr.consLet ⟨x, some ty, v⟩ body, ws) := by
  have hfirst := (head_ne_of_readExpr hty).1
  cases ts with
  | nil => simp [readExpr, hty, expect, hv, hbody]
  | cons t ts =>
      cases t <;> first
        | exact absurd rfl hfirst
        | simp [readExpr, hty, expect, hv, hbody]

theorem readElems_cons (he : readExpr n ts = some (e, .comma :: us))
    (helems : readElems n us = some (elems, vs)) :
    readElems (n + 1) ts = some (e :: elems, vs) := by
  have hfirst := (head_ne_of_readExpr he).2
  cases ts with
  | nil => simp [readElems, he, helems]
  | cons t ts =>
      cases t <;> first
        | exact absurd rfl hfirst
        | simp [readElems, he, helems]

theorem readElems_last (he : readExpr n ts = some (e, .closeBracket :: us)) :
    readElems (n + 1) ts = some ([e], us) := by
  have hfirst := (head_ne_of_readExpr he).2
  cases ts with
  | nil => simp [readElems, he]
  | cons t ts =>
      cases t <;> first
        | exact absurd rfl hfirst
        | simp [readElems, he]

theorem readExpr_of_opensOperand {t : Token} (ht : t.opensOperand = true)
    (hparen : t ≠ .openParen) (hop : readOperand n (t :: ts) = some (e, us)) :
    readExpr (n + 1) (t :: ts) = readSpine n e us := by
  cases t <;> first
    | exact absurd rfl hparen
    | (simp [Token.opensOperand] at ht; done)
    | simp [readExpr, hop]

theorem readExpr_paren (h : readExpr n ts = some (e, .closeParen :: us)) :
    readExpr (n + 1) (.openParen :: ts) = readSpine n e us := by
  simp [readExpr, h]

theorem readSpine_of_readArgs (h : readArgs n ts = some (args, us)) :
    readSpine (n + 1) fn ts = readArrow n (spine fn args) us := by
  simp [readSpine, h]

theorem readSpine_of_closes (h : Closes ts) :
    readSpine (n + 2) e ts = readArrow (n + 1) e ts :=
  readSpine_of_readArgs (readArgs_of_closes n h)

/-- The name of a binder is an expression of its own, as far as the reader can tell
before it meets the colon. -/
theorem readExpr_name_colon :
    readExpr (n + 3) (.name x :: .colon :: ts) = some (.var x, .colon :: ts) := by
  rw [readExpr_of_opensOperand rfl (by simp) rfl, readSpine_of_closes (by simp; rfl),
    readArrow_of_ends n _ (by simp; rfl)]

theorem ReadsExpr.arrow (hpos : 0 < ts.length) (hdom : ReadsDomain ts e)
    (hbody : ReadsExpr us body) :
    ReadsExpr (ts ++ .arrow :: us) (Expr.consPi ⟨none, e, false⟩ body) := by
  intro n rest hn hrest
  simp only [List.length_append, List.length_cons] at hn
  obtain ⟨k, rfl⟩ : ∃ k, n = k + 3 := ⟨n - 3, by omega⟩
  rw [List.append_assoc, List.cons_append, hdom (k + 1) _ (by omega) (by simp; rfl), readArrow,
    hbody k rest (by omega) hrest]
  rfl

theorem ReadsExpr.named (hty : ReadsExpr ts ty) (hbody : ReadsExpr us body) (implicit : Bool) :
    ReadsExpr (Expr.bracketed x ts implicit ++ .arrow :: us)
      (Expr.consPi ⟨some x, ty, implicit⟩ body) := by
  intro n rest hn hrest
  cases implicit with
  | true =>
      simp only [Expr.bracketed, if_true, List.length_append, List.length_cons,
        List.length_nil] at hn
      obtain ⟨k, rfl⟩ : ∃ k, n = k + 1 := ⟨n - 1, by omega⟩
      have h1 := hty k (.closeBrace :: .arrow :: (us ++ rest)) (by omega) (by simp; rfl)
      have h2 := hbody k rest (by omega) hrest
      simp [Expr.bracketed, readExpr, h1, h2, expect]
  | false =>
      simp only [Expr.bracketed, Bool.false_eq_true, if_false, List.length_append,
        List.length_cons, List.length_nil] at hn
      obtain ⟨k, rfl⟩ : ∃ k, n = k + 4 := ⟨n - 4, by omega⟩
      have h1 := hty (k + 3) (.closeParen :: .arrow :: (us ++ rest)) (by omega) (by simp; rfl)
      have h2 := hbody (k + 3) rest (by omega) hrest
      have hname : readExpr (k + 3)
          (.name x :: .colon :: (ts ++ .closeParen :: .arrow :: (us ++ rest))) = _ :=
        readExpr_name_colon
      simp [Expr.bracketed, readExpr.eq_def (k + 4), h1, h2, hname, expect]

theorem ReadsExpr.untypedLet (hv : ReadsExpr ts v) (hbody : ReadsExpr us body) :
    ReadsExpr (.kwLet :: .name x :: .colon :: .equals :: (ts ++ .semicolon :: us))
      (Expr.consLet ⟨x, none, v⟩ body) := by
  intro n rest hn hrest
  simp only [List.length_append, List.length_cons] at hn
  obtain ⟨k, rfl⟩ : ∃ k, n = k + 1 := ⟨n - 1, by omega⟩
  have h1 := hv k (.semicolon :: (us ++ rest)) (by omega) (by simp; rfl)
  have h2 := hbody k rest (by omega) hrest
  simp [readExpr, h1, h2, expect]

theorem ReadsExpr.typedLet (hty : ReadsExpr vs ty) (hv : ReadsExpr ts v)
    (hbody : ReadsExpr us body) :
    ReadsExpr (.kwLet :: .name x :: .colon :: (vs ++ .colon :: .equals :: (ts ++ .semicolon :: us)))
      (Expr.consLet ⟨x, some ty, v⟩ body) := by
  intro n rest hn hrest
  simp only [List.length_append, List.length_cons] at hn
  obtain ⟨k, rfl⟩ : ∃ k, n = k + 1 := ⟨n - 1, by omega⟩
  have h1 := hty k (.colon :: .equals :: (ts ++ .semicolon :: (us ++ rest))) (by omega)
    (by simp; rfl)
  have h2 := hv k (.semicolon :: (us ++ rest)) (by omega) (by simp; rfl)
  have h3 := hbody k rest (by omega) hrest
  simpa using readExpr_typedLet h1 h2 h3

end Steps

/-! ## Reading what was written -/

namespace Expr

/-- An operand starts with a token that operands start with, and with a parenthesis
only if it needs one. -/
theorem exists_first_grouped {e : Expr} (h : e.isReadable) :
    ∃ t ts, grouped e.isAtomic e.tokens = t :: ts ∧ t.opensOperand = true ∧
      (e.isAtomic = true → t ≠ .openParen) := by
  cases e with
  | sort level =>
      by_cases hlevel : level = 0
      · exact ⟨.kwType, [], by simp [grouped, isAtomic, tokens, hlevel], rfl, by simp⟩
      · exact ⟨.openParen, (sort level).tokens ++ [.closeParen],
          by simp [grouped, isAtomic, hlevel], rfl, by simp [isAtomic, hlevel]⟩
  | ascription e ty => simp [isReadable] at h
  | var x => exact ⟨.name x, [], rfl, rfl, by simp⟩
  | explicitVar x => exact ⟨.at, [.name x], rfl, rfl, by simp⟩
  | nat n => exact ⟨.number n, [], rfl, rfl, by simp⟩
  | string s => exact ⟨.string s, [], rfl, rfl, by simp⟩
  | list elems => exact ⟨.openBracket, _, rfl, rfl, by simp⟩
  | app fn args => exact ⟨.openParen, _, rfl, rfl, by simp [isAtomic]⟩
  | lam binders body => exact ⟨.openParen, _, rfl, rfl, by simp [isAtomic]⟩
  | pi binders body => exact ⟨.openParen, _, rfl, rfl, by simp [isAtomic]⟩
  | letIn bindings body => exact ⟨.openParen, _, rfl, rfl, by simp [isAtomic]⟩
  | ite c t e => exact ⟨.openParen, _, rfl, rfl, by simp [isAtomic]⟩

theorem length_grouped_pos {e : Expr} (h : e.isReadable) :
    0 < (grouped e.isAtomic e.tokens).length := by
  obtain ⟨t, ts, heq, -⟩ := exists_first_grouped h
  simp [heq]

theorem length_tokens_pos {e : Expr} (h : e.isReadable) : 0 < e.tokens.length := by
  cases e with
  | app fn args =>
      simp only [isReadable, Bool.and_eq_true] at h
      have hpos := length_grouped_pos h.1.1.2
      rw [tokens, List.length_append]
      omega
  | pi binders body =>
      cases binders with
      | nil => simp [isReadable] at h
      | cons b binders =>
          obtain ⟨x, ty, implicit⟩ := b
          cases x <;> simp [tokens, piTokens]
  | letIn bindings body =>
      cases bindings with
      | nil => simp [isReadable] at h
      | cons b bindings =>
          obtain ⟨x, ty, v⟩ := b
          cases ty <;> simp [tokens, letTokens]
  | sort level =>
      rw [tokens]
      split <;> simp
  | _ => simp [tokens]

theorem length_grouped_tokens_pos {e : Expr} (h : e.isReadable) (bare : Bool) :
    0 < (grouped bare e.tokens).length := by
  cases bare with
  | true => exact length_tokens_pos h
  | false => simp [grouped]

/-- That an expression is read back from its tokens: on its own, as an operand, and as
the domain of an arrow. -/
structure ReadsBack (e : Expr) : Prop where
  whole : ReadsExpr e.tokens e.merged
  operand : ReadsOperand (grouped e.isAtomic e.tokens) e.merged
  domain : ReadsDomain (grouped (!e.isOpen) e.tokens) e.merged

section

variable {e fn : Expr} {args : List Expr}

/-- An operand in front of anything is the head of what is read. -/
theorem readExpr_grouped (h : e.isReadable)
    (hwhole : e.isAtomic = false → ReadsExpr e.tokens e.merged)
    (hoperand : ReadsOperand (grouped e.isAtomic e.tokens) e.merged)
    (n : Nat) (rest : List Token) (hn : 2 * (grouped e.isAtomic e.tokens).length ≤ n) :
    readExpr (n + 1) (grouped e.isAtomic e.tokens ++ rest) = readSpine n e.merged rest := by
  cases hatomic : e.isAtomic with
  | true =>
      obtain ⟨t, ts, heq, ht, hparen⟩ := exists_first_grouped h
      have hop := hoperand n rest hn
      rw [heq, List.cons_append] at hop
      rw [← hatomic, heq, List.cons_append]
      exact readExpr_of_opensOperand ht (hparen hatomic) hop
  | false =>
      rw [hatomic] at hn
      simp only [grouped, Bool.false_eq_true, if_false, List.length_append, List.length_cons,
        List.length_nil] at hn
      have hread := hwhole hatomic n (.closeParen :: rest) (by omega) (by simp; rfl)
      rw [grouped, if_neg (by simp), List.append_assoc, List.cons_append]
      exact readExpr_paren hread

theorem operand_of_whole (hatomic : e.isAtomic = false) (hwhole : ReadsExpr e.tokens e.merged) :
    ReadsOperand (grouped e.isAtomic e.tokens) e.merged := by
  intro n rest hn
  rw [hatomic] at hn ⊢
  simp only [grouped, Bool.false_eq_true, if_false, List.length_append, List.length_cons,
    List.length_nil] at hn
  obtain ⟨k, rfl⟩ : ∃ k, n = k + 1 := ⟨n - 1, by omega⟩
  have hread := hwhole k (.closeParen :: rest) (by omega) (by simp; rfl)
  simp [grouped, readOperand, hread, expect]

theorem whole_of_domain (hopen : e.isOpen = false) (hpos : 0 < e.tokens.length)
    (hdomain : ReadsDomain (grouped (!e.isOpen) e.tokens) e.merged) :
    ReadsExpr e.tokens e.merged := by
  intro n rest hn hrest
  rw [hopen] at hdomain
  obtain ⟨k, rfl⟩ : ∃ k, n = k + 3 := ⟨n - 3, by omega⟩
  exact (hdomain (k + 1) rest (by simp only [grouped, Bool.not_false, if_true]; omega)
    hrest.closes).trans (readArrow_of_ends k _ hrest)

/-- What needs parentheses as a domain just when it needs them as an operand. -/
theorem domain_of_operand (h : e.isReadable) (hsame : e.isAtomic = !e.isOpen)
    (hwhole : e.isAtomic = false → ReadsExpr e.tokens e.merged)
    (hoperand : ReadsOperand (grouped e.isAtomic e.tokens) e.merged) :
    ReadsDomain (grouped (!e.isOpen) e.tokens) e.merged := by
  intro n rest hn hrest
  rw [← hsame] at hn ⊢
  have hpos := length_grouped_pos h
  obtain ⟨k, rfl⟩ : ∃ k, n = k + 1 := ⟨n - 1, by omega⟩
  rw [readExpr_grouped h hwhole hoperand (k + 2) rest (by omega), readSpine_of_closes hrest]

theorem ReadsBack.of_atomic (h : e.isReadable) (hatomic : e.isAtomic = true)
    (hopen : e.isOpen = false)
    (hoperand : ReadsOperand (grouped e.isAtomic e.tokens) e.merged) : ReadsBack e := by
  have hpos := length_grouped_pos h
  rw [hatomic] at hpos
  have hdomain := domain_of_operand h (by rw [hatomic, hopen]; rfl) (by simp [hatomic]) hoperand
  exact ⟨whole_of_domain hopen hpos hdomain, hoperand, hdomain⟩

theorem isAtomic_of_isOpen (h : e.isOpen = true) : e.isAtomic = false := by
  cases e <;> first | rfl | simp [isOpen] at h

theorem ReadsBack.of_open (h : e.isReadable) (hopen : e.isOpen = true)
    (hwhole : ReadsExpr e.tokens e.merged) : ReadsBack e := by
  have hatomic := isAtomic_of_isOpen hopen
  have hoperand := operand_of_whole hatomic hwhole
  exact ⟨hwhole, hoperand,
    domain_of_operand h (by rw [hatomic, hopen]; rfl) (fun _ => hwhole) hoperand⟩

theorem ReadsBack.of_domain (hatomic : e.isAtomic = false) (hopen : e.isOpen = false)
    (hpos : 0 < e.tokens.length)
    (hdomain : ReadsDomain (grouped (!e.isOpen) e.tokens) e.merged) : ReadsBack e :=
  have hwhole := whole_of_domain hopen hpos hdomain
  ⟨hwhole, operand_of_whole hatomic hwhole, hdomain⟩

theorem isHead_consPi (b : PiBinder Expr) (body : Expr) : (consPi b body).isHead = true := by
  cases body <;> rfl

theorem isHead_consLet (b : Binding Expr) (body : Expr) : (consLet b body).isHead = true := by
  cases body <;> rfl

theorem isHead_merged (h : fn.isReadable) (hhead : fn.isHead = true) :
    fn.merged.isHead = true := by
  cases fn with
  | app fn args => simp [isHead] at hhead
  | sort level => simp [isHead] at hhead
  | pi binders body =>
      cases binders with
      | nil => simp [isReadable] at h
      | cons b binders => exact isHead_consPi _ _
  | letIn bindings body =>
      cases bindings with
      | nil => simp [isReadable] at h
      | cons b bindings =>
          obtain ⟨x, ty, v⟩ := b
          cases ty <;> exact isHead_consLet _ _
  | _ => rfl

theorem spine_of_isHead (h : fn.isHead = true) (hargs : args ≠ []) :
    spine fn args = app fn args := by
  obtain ⟨a, args, rfl⟩ := List.exists_cons_of_ne_nil hargs
  cases fn <;> first | (simp [isHead] at h; done) | simp [spine]

end

/-! ## Every expression -/

/-- That arguments are read back from their tokens. -/
def ReadsArgs (args : List Expr) : Prop :=
  ∀ n rest, 2 * (argTokens args).length + 1 ≤ n → Closes rest →
    readArgs n (argTokens args ++ rest) = some (mergedList args, rest)

/-- That the elements of a list are read back from their tokens. -/
def ReadsElems (elems : List Expr) : Prop :=
  ∀ n rest, 2 * (elemTokens elems).length + 2 ≤ n →
    readElems n (elemTokens elems ++ .closeBracket :: rest) = some (mergedList elems, rest)

/-- That binders are read back from their tokens. -/
def ReadsBinders (binders : List (Binder Expr)) : Prop :=
  ∀ n rest, 2 * (binderTokens binders).length + 1 ≤ n →
    readBinders n (binderTokens binders ++ .equals :: .greater :: rest) =
      some (mergedBinders binders, rest)

section

variable {fn e ty : Expr} {args elems : List Expr} {binders : List (Binder Expr)}

theorem mergedList_ne_nil (h : args ≠ []) : mergedList args ≠ [] := by
  obtain ⟨a, args, rfl⟩ := List.exists_cons_of_ne_nil h
  simp [mergedList]

theorem readsArgs_cons (h : e.isReadable) (he : ReadsBack e) (hargs : ReadsArgs args) :
    ReadsArgs (e :: args) := by
  intro n rest hn hrest
  obtain ⟨t, ts, heq, ht, -⟩ := exists_first_grouped h
  have hpos := length_grouped_pos h
  rw [argTokens, List.length_append] at hn
  obtain ⟨k, rfl⟩ : ∃ k, n = k + 1 := ⟨n - 1, by omega⟩
  have hfirst := he.operand k (argTokens args ++ rest) (by omega)
  have hmore := hargs k rest (by omega) hrest
  rw [heq, List.cons_append] at hfirst
  rw [argTokens, heq, List.append_assoc, List.cons_append, readArgs, if_pos ht, hfirst]
  simp [hmore, mergedList]

theorem domain_app (h : fn.isReadable) (hhead : fn.isHead = true) (hne : args ≠ [])
    (hfn : ReadsBack fn) (hargs : ReadsArgs args) :
    ReadsDomain (app fn args).tokens (app fn args).merged := by
  intro n rest hn hrest
  have hpos := length_grouped_pos h
  rw [tokens, List.length_append] at hn
  rw [tokens, List.append_assoc,
    readExpr_grouped h (fun _ => hfn.whole) hfn.operand (n + 1) _ (by omega),
    readSpine_of_readArgs (hargs n rest (by omega) hrest),
    spine_of_isHead (isHead_merged h hhead) (mergedList_ne_nil hne), merged]

theorem readsBack_sort (level : Nat) : ReadsBack (sort level) := by
  by_cases hlevel : level = 0
  · subst hlevel
    refine .of_atomic rfl rfl rfl fun n rest hn => ?_
    obtain ⟨k, rfl⟩ : ∃ k, n = k + 1 := ⟨n - 1, by simp [grouped, isAtomic, tokens] at hn; omega⟩
    simp [grouped, isAtomic, tokens, readOperand, merged]
  · have htokens : (sort level).tokens = [.kwType, .number level] := by simp [tokens, hlevel]
    refine .of_domain (by simp [isAtomic, hlevel]) rfl (by simp [htokens]) fun n rest hn hrest => ?_
    simp only [htokens, isOpen, grouped] at hn ⊢
    obtain ⟨k, rfl⟩ : ∃ k, n = k + 3 := ⟨n - 3, by simp at hn; omega⟩
    have hargs : readArgs (k + 3) (.number level :: rest) = some ([.nat level], rest) := by
      simp [readArgs, Token.opensOperand, readOperand, readArgs_of_closes (k + 1) hrest]
    exact (readExpr_of_opensOperand rfl (by simp) rfl).trans (readSpine_of_readArgs hargs)

theorem readsElems_last (he : ReadsBack e) : ReadsElems [e] := by
  intro n rest hn
  rw [elemTokens] at hn
  obtain ⟨k, rfl⟩ : ∃ k, n = k + 1 := ⟨n - 1, by omega⟩
  have hread := he.whole k (.closeBracket :: rest) (by omega) (by simp; rfl)
  exact readElems_last hread

theorem readsElems_cons {f : Expr} (he : ReadsBack e) (helems : ReadsElems (f :: elems)) :
    ReadsElems (e :: f :: elems) := by
  intro n rest hn
  rw [elemTokens, List.length_append, List.length_cons] at hn
  obtain ⟨k, rfl⟩ : ∃ k, n = k + 1 := ⟨n - 1, by omega⟩
  have hfirst := he.whole k (.comma :: (elemTokens (f :: elems) ++ .closeBracket :: rest))
    (by omega) (by simp; rfl)
  have hmore := helems k rest (by omega)
  rw [elemTokens, List.append_assoc, List.cons_append]
  exact readElems_cons hfirst hmore

theorem readsBinders_cons (x : String) (implicit : Bool) (hty : ReadsBack ty)
    (hbinders : ReadsBinders binders) : ReadsBinders (⟨x, ty, implicit⟩ :: binders) := by
  intro n rest hn
  have hlength : (bracketed x ty.tokens implicit).length = ty.tokens.length + 4 := by
    cases implicit <;> simp [bracketed]
  rw [binderTokens, List.length_append, hlength] at hn
  obtain ⟨k, rfl⟩ : ∃ k, n = k + 1 := ⟨n - 1, by omega⟩
  have hmore := hbinders k rest (by omega)
  cases implicit with
  | true =>
      have hfirst := hty.whole k
        (.closeBrace :: (binderTokens binders ++ .equals :: .greater :: rest)) (by omega)
        (by simp; rfl)
      simp [binderTokens, bracketed, readBinders, hfirst, hmore, expect, mergedBinders]
  | false =>
      have hfirst := hty.whole k
        (.closeParen :: (binderTokens binders ++ .equals :: .greater :: rest)) (by omega)
        (by simp; rfl)
      simp [binderTokens, bracketed, readBinders, hfirst, hmore, expect, mergedBinders]

theorem readsExpr_lam {body : Expr} (hbinders : ReadsBinders binders) (hbody : ReadsBack body) :
    ReadsExpr (lam binders body).tokens (lam binders body).merged := by
  intro n rest hn hrest
  simp only [tokens, List.length_cons, List.length_append] at hn
  obtain ⟨k, rfl⟩ : ∃ k, n = k + 1 := ⟨n - 1, by omega⟩
  have h1 := hbinders k (body.tokens ++ rest) (by omega)
  have h2 := hbody.whole k rest (by omega) hrest
  simp [tokens, readExpr, h1, h2, merged]

theorem readsExpr_ite {c t : Expr} (hc : ReadsBack c) (ht : ReadsBack t) (he : ReadsBack e) :
    ReadsExpr (ite c t e).tokens (ite c t e).merged := by
  intro n rest hn hrest
  simp only [tokens, List.length_cons, List.length_append] at hn
  obtain ⟨k, rfl⟩ : ∃ k, n = k + 1 := ⟨n - 1, by omega⟩
  have h1 := hc.whole k (.kwThen :: (t.tokens ++ .kwElse :: (e.tokens ++ rest))) (by omega)
    (by simp; rfl)
  have h2 := ht.whole k (.kwElse :: (e.tokens ++ rest)) (by omega) (by simp; rfl)
  have h3 := he.whole k rest (by omega) hrest
  simp [tokens, readExpr, h1, h2, h3, expect, merged]

theorem operand_list (helems : ReadsElems elems) :
    ReadsOperand (list elems).tokens (list elems).merged := by
  intro n rest hn
  simp only [tokens, List.length_cons, List.length_append, List.length_nil] at hn
  obtain ⟨k, rfl⟩ : ∃ k, n = k + 1 := ⟨n - 1, by omega⟩
  have h := helems k rest (by omega)
  simp [tokens, readOperand, h, merged]

end

mutual

/-- Every readable expression is read back from its tokens. -/
theorem readsBack : ∀ e : Expr, e.isReadable → ReadsBack e
  | var x, h => by
      refine .of_atomic h rfl rfl fun n rest hn => ?_
      obtain ⟨k, rfl⟩ : ∃ k, n = k + 1 := ⟨n - 1, by simp [grouped, isAtomic, tokens] at hn; omega⟩
      rfl
  | explicitVar x, h => by
      refine .of_atomic h rfl rfl fun n rest hn => ?_
      obtain ⟨k, rfl⟩ : ∃ k, n = k + 1 := ⟨n - 1, by simp [grouped, isAtomic, tokens] at hn; omega⟩
      rfl
  | app fn args, h => by
      have hparts := h
      simp only [isReadable, Bool.and_eq_true, Bool.not_eq_true', List.isEmpty_eq_false_iff]
        at hparts
      have hpos := length_grouped_pos hparts.1.1.2
      refine .of_domain rfl rfl (by rw [tokens, List.length_append]; omega) ?_
      exact domain_app hparts.1.1.2 hparts.1.1.1 hparts.1.2 (readsBack fn hparts.1.1.2)
        (readsArgs args hparts.2)
  | lam binders body, h => by
      have hparts := h
      simp only [isReadable, Bool.and_eq_true] at hparts
      exact .of_open h rfl
        (readsExpr_lam (readsBinders binders hparts.1.2) (readsBack body hparts.2))
  | pi binders body, h => by
      have hparts := h
      simp only [isReadable, Bool.and_eq_true] at hparts
      exact .of_open h rfl (readsExpr_pi binders hparts.1.2 (readsBack body hparts.2).whole)
  | letIn bindings body, h => by
      have hparts := h
      simp only [isReadable, Bool.and_eq_true] at hparts
      exact .of_open h rfl (readsExpr_let bindings hparts.1.2 (readsBack body hparts.2).whole)
  | ite c t e, h => by
      have hparts := h
      simp only [isReadable, Bool.and_eq_true] at hparts
      exact .of_open h rfl (readsExpr_ite (readsBack c hparts.1.1) (readsBack t hparts.1.2)
        (readsBack e hparts.2))
  | sort level, _ => readsBack_sort level
  | nat m, h => by
      refine .of_atomic h rfl rfl fun n rest hn => ?_
      obtain ⟨k, rfl⟩ : ∃ k, n = k + 1 := ⟨n - 1, by simp [grouped, isAtomic, tokens] at hn; omega⟩
      rfl
  | string s, h => by
      refine .of_atomic h rfl rfl fun n rest hn => ?_
      obtain ⟨k, rfl⟩ : ∃ k, n = k + 1 := ⟨n - 1, by simp [grouped, isAtomic, tokens] at hn; omega⟩
      rfl
  | list elems, h => by
      have hparts := h
      simp only [isReadable] at hparts
      exact .of_atomic h rfl rfl (operand_list (readsElems elems hparts))
  | ascription _ _, h => by simp [isReadable] at h

/-- `readsBack` of arguments. -/
theorem readsArgs : ∀ args : List Expr, areReadable args → ReadsArgs args
  | [], _ => by
      intro n rest hn hrest
      obtain ⟨k, rfl⟩ : ∃ k, n = k + 1 := ⟨n - 1, by omega⟩
      exact readArgs_of_closes k hrest
  | e :: rest, h => by
      simp only [areReadable, Bool.and_eq_true] at h
      exact readsArgs_cons h.1 (readsBack e h.1) (readsArgs rest h.2)

/-- `readsBack` of the elements of a list. -/
theorem readsElems : ∀ elems : List Expr, areReadable elems → ReadsElems elems
  | [], _ => by
      intro n rest hn
      obtain ⟨k, rfl⟩ : ∃ k, n = k + 1 := ⟨n - 1, by omega⟩
      rfl
  | [e], h => by
      simp only [areReadable, Bool.and_eq_true] at h
      exact readsElems_last (readsBack e h.1)
  | e :: f :: rest, h => by
      rw [areReadable, Bool.and_eq_true] at h
      exact readsElems_cons (readsBack e h.1) (readsElems (f :: rest) h.2)

/-- `readsBack` of binders. -/
theorem readsBinders : ∀ binders : List (Binder Expr), bindersReadable binders →
    ReadsBinders binders
  | [], _ => by
      intro n rest hn
      obtain ⟨k, rfl⟩ : ∃ k, n = k + 1 := ⟨n - 1, by omega⟩
      rfl
  | ⟨x, ty, implicit⟩ :: rest, h => by
      simp only [bindersReadable, Bool.and_eq_true] at h
      exact readsBinders_cons x implicit (readsBack ty h.1.2) (readsBinders rest h.2)

/-- `readsBack` of the binders of a function type, in front of its target. -/
theorem readsExpr_pi : ∀ (binders : List (PiBinder Expr)) {ts : List Token} {e : Expr},
    piBindersReadable binders → ReadsExpr ts e →
      ReadsExpr (piTokens binders ++ ts) (mergedPi binders e)
  | [], _, _, _, hbody => hbody
  | ⟨some x, ty, implicit⟩ :: rest, _, _, h, hbody => by
      simp only [piBindersReadable, Bool.and_eq_true] at h
      have hmore := (readsBack ty h.1.2).whole.named (x := x) (readsExpr_pi rest h.2 hbody) implicit
      simpa [piTokens, mergedPi] using hmore
  | ⟨none, ty, implicit⟩ :: rest, _, _, h, hbody => by
      simp only [piBindersReadable, Bool.and_eq_true, Bool.not_eq_true'] at h
      have hmore := ReadsExpr.arrow (length_grouped_tokens_pos h.1.2 (!ty.isOpen))
        (readsBack ty h.1.2).domain (readsExpr_pi rest h.2 hbody)
      simpa [piTokens, mergedPi, h.1.1] using hmore

/-- `readsBack` of bindings, in front of their body. -/
theorem readsExpr_let : ∀ (bindings : List (Binding Expr)) {ts : List Token} {e : Expr},
    bindingsReadable bindings → ReadsExpr ts e →
      ReadsExpr (letTokens bindings ++ ts) (mergedLet bindings e)
  | [], _, _, _, hbody => hbody
  | ⟨x, none, v⟩ :: rest, _, _, h, hbody => by
      simp only [bindingsReadable, Bool.and_eq_true] at h
      have hmore := (readsBack v h.1.2).whole.untypedLet (x := x) (readsExpr_let rest h.2 hbody)
      simpa [letTokens, mergedLet] using hmore
  | ⟨x, some ty, v⟩ :: rest, _, _, h, hbody => by
      simp only [bindingsReadable, Bool.and_eq_true] at h
      have hmore := (readsBack ty h.1.1.2).whole.typedLet (x := x) (readsBack v h.1.2).whole
        (readsExpr_let rest h.2 hbody)
      simpa [letTokens, mergedLet] using hmore

end

variable {t u : Expr}

/-- Readable expressions with one text agree up to the joining of directly nested
function types and of directly nested bindings. -/
theorem merged_eq_of_text_eq (ht : t.isReadable) (hu : u.isReadable) (h : t.text = u.text) :
    t.merged = u.merged := by
  have htokens : t.tokens = u.tokens := by
    rw [← lex_text ht, ← lex_text hu, h]
  have hreads : readExpr (2 * t.tokens.length + 1) t.tokens = some (t.merged, []) := by
    simpa using (readsBack t ht).whole _ [] le_rfl ends_nil
  have hreads' : readExpr (2 * u.tokens.length + 1) u.tokens = some (u.merged, []) := by
    simpa using (readsBack u hu).whole _ [] le_rfl ends_nil
  rw [htokens, hreads'] at hreads
  simpa using hreads.symm

theorem merged_eq_of_text_eq_nested :
    let value : Binding Expr := ⟨"x", none, string "; \"y\""⟩
    let type : Binding Expr := ⟨"t", some (sort 1), pi [⟨none, var "Nat", false⟩] (sort 0)⟩
    let nested := letIn [value] (letIn [type] (app (var "M.f") [var "x", var "t"]))
    let flat := letIn [value, type] (app (var "M.f") [var "x", var "t"])
    nested.isReadable ∧ flat.isReadable ∧ nested.text = flat.text ∧
      nested.merged = flat.merged := by
  intro value type nested flat
  have hnested : nested.isReadable := by decide +kernel
  have hflat : flat.isReadable := by decide +kernel
  have htext : nested.text = flat.text := by decide +kernel
  exact ⟨hnested, hflat, htext, merged_eq_of_text_eq hnested hflat htext⟩

/-! ## Merging keeps the text -/

theorem isOpen_consPi (b : PiBinder Expr) (body : Expr) : (consPi b body).isOpen = true := by
  cases body <;> rfl

theorem isOpen_consLet (b : Binding Expr) (body : Expr) : (consLet b body).isOpen = true := by
  cases body <;> rfl

theorem text_consPi (b : PiBinder Expr) (body : Expr) :
    (consPi b body).text = piText [b] ++ body.text := by
  obtain ⟨x, ty, implicit⟩ := b
  cases body <;> cases x <;> simp [consPi, text, piText, String.append_assoc]

theorem text_consLet (b : Binding Expr) (body : Expr) :
    (consLet b body).text = letText [b] ++ body.text := by
  obtain ⟨x, ty, v⟩ := b
  cases body <;> cases ty <;> simp [consLet, text, letText, String.append_assoc]

theorem isOpen_merged (h : t.isReadable) : t.merged.isOpen = t.isOpen := by
  cases t with
  | pi binders body =>
      cases binders with
      | nil => simp [isReadable] at h
      | cons b binders => exact isOpen_consPi _ _
  | letIn bindings body =>
      cases bindings with
      | nil => simp [isReadable] at h
      | cons b bindings =>
          obtain ⟨x, ty, v⟩ := b
          cases ty <;> exact isOpen_consLet _ _
  | _ => rfl

theorem isAtomic_merged (h : t.isReadable) : t.merged.isAtomic = t.isAtomic := by
  have hopen := isOpen_merged h
  cases t with
  | pi binders body => exact isAtomic_of_isOpen hopen
  | letIn bindings body => exact isAtomic_of_isOpen hopen
  | _ => rfl

mutual

/-- Joining directly nested function types and bindings changes nothing in the text. -/
theorem text_merged : ∀ e : Expr, e.isReadable → e.merged.text = e.text
  | var _, _ | explicitVar _, _ | sort _, _ | nat _, _ | string _, _ => rfl
  | app fn args, h => by
      simp only [isReadable, Bool.and_eq_true] at h
      simp [merged, text, isAtomic_merged h.1.1.2, text_merged fn h.1.1.2,
        argsText_merged args h.2]
  | lam binders body, h => by
      simp only [isReadable, Bool.and_eq_true] at h
      simp [merged, text, bindersText_merged binders h.1.2, text_merged body h.2]
  | pi binders body, h => by
      simp only [isReadable, Bool.and_eq_true] at h
      rw [merged, text_mergedPi binders h.1.2, text_merged body h.2, text]
  | letIn bindings body, h => by
      simp only [isReadable, Bool.and_eq_true] at h
      rw [merged, text_mergedLet bindings h.1.2, text_merged body h.2, text]
  | ite c t e, h => by
      simp only [isReadable, Bool.and_eq_true] at h
      simp [merged, text, text_merged c h.1.1, text_merged t h.1.2, text_merged e h.2]
  | list elems, h => by
      simp only [isReadable] at h
      simp [merged, text, textList_merged elems h]
  | ascription _ _, h => by simp [isReadable] at h

/-- `text_merged` of arguments. -/
theorem argsText_merged : ∀ args : List Expr, areReadable args →
    argsText (mergedList args) = argsText args
  | [], _ => rfl
  | e :: rest, h => by
      simp only [areReadable, Bool.and_eq_true] at h
      simp [mergedList, argsText, isAtomic_merged h.1, text_merged e h.1,
        argsText_merged rest h.2]

/-- `text_merged` of the elements of a list. -/
theorem textList_merged : ∀ elems : List Expr, areReadable elems →
    textList (mergedList elems) = textList elems
  | [], _ => rfl
  | e :: rest, h => by
      simp only [areReadable, Bool.and_eq_true] at h
      simp [mergedList, textList, text_merged e h.1, textList_merged rest h.2]

/-- `text_merged` of binders. -/
theorem bindersText_merged : ∀ binders : List (Binder Expr), bindersReadable binders →
    bindersText (mergedBinders binders) = bindersText binders
  | [], _ => rfl
  | ⟨x, ty, implicit⟩ :: rest, h => by
      simp only [bindersReadable, Bool.and_eq_true] at h
      simp [mergedBinders, bindersText, text_merged ty h.1.2, bindersText_merged rest h.2]

/-- `text_merged` of the binders of a function type, in front of its target. -/
theorem text_mergedPi : ∀ (binders : List (PiBinder Expr)) {body : Expr},
    piBindersReadable binders → (mergedPi binders body).text = piText binders ++ body.text
  | [], _, _ => by simp [mergedPi, piText]
  | ⟨some x, ty, implicit⟩ :: rest, _, h => by
      simp only [piBindersReadable, Bool.and_eq_true] at h
      simp [mergedPi, text_consPi, piText, text_merged ty h.1.2, text_mergedPi rest h.2,
        String.append_assoc]
  | ⟨none, ty, implicit⟩ :: rest, _, h => by
      simp only [piBindersReadable, Bool.and_eq_true] at h
      simp [mergedPi, text_consPi, piText, isOpen_merged h.1.2, text_merged ty h.1.2,
        text_mergedPi rest h.2, String.append_assoc]

/-- `text_merged` of bindings, in front of their body. -/
theorem text_mergedLet : ∀ (bindings : List (Binding Expr)) {body : Expr},
    bindingsReadable bindings → (mergedLet bindings body).text = letText bindings ++ body.text
  | [], _, _ => by simp [mergedLet, letText]
  | ⟨x, none, v⟩ :: rest, _, h => by
      simp only [bindingsReadable, Bool.and_eq_true] at h
      simp [mergedLet, text_consLet, letText, text_merged v h.1.2, text_mergedLet rest h.2,
        String.append_assoc]
  | ⟨x, some ty, v⟩ :: rest, _, h => by
      simp only [bindingsReadable, Bool.and_eq_true] at h
      simp [mergedLet, text_consLet, letText, text_merged ty h.1.1.2, text_merged v h.1.2,
        text_mergedLet rest h.2, String.append_assoc]

end

end Expr

end Target

end TermGraph
