import ScopeChain.Proofs.Numbering
import ScopeChain.Proofs.Rounds
import ScopeChain.Proofs.Tiling

/-! How many nodes a text has. Every number that is given out is paid for by a token: a name pays for
itself, and a keyword or a comma for the names that must follow, which may be missing. No token pays
for more nodes than it has characters. -/
namespace ScopeChain

open Token (Kind)

/-- How many nodes a token pays for when it is read. -/
def Token.Kind.pays : Kind → Nat
  | .identifier _ | .keyword .varKw | .keyword .thisKw | .punctuator .comma => 1
  | .keyword .catchKw => 2
  | .keyword .functionKw => 3
  | _ => 0

/-- How many nodes some tokens pay for. -/
def Token.allPay : List Token → Nat
  | [] => 0
  | t :: ts => t.kind.pays + Token.allPay ts

theorem Token.allPay_append (ts us : List Token) :
    Token.allPay (ts ++ us) = Token.allPay ts + Token.allPay us := by
  induction ts with
  | nil => exact (Nat.zero_add _).symm
  | cons t ts ih => rw [List.cons_append, allPay, allPay, ih, Nat.add_assoc]

namespace Lexer

theorem Covers.pays_le {kind : Kind} {covered rest : List Char} (h : Covers kind covered rest)
    (hne : covered ≠ []) : kind.pays ≤ covered.length := by
  have hpos := List.length_pos_iff.2 hne
  cases kind with
  | identifier => exact hpos
  | keyword k =>
    rw [h.1]
    cases k <;> decide
  | punctuator p =>
    rw [show covered = p.text.toList from h]
    cases p <;> decide
  | _ => exact Nat.zero_le _

theorem Tiles.allPay_le {pos : Nat} {cs : List Char} {ts : List Token} (h : Tiles pos cs ts) :
    Token.allPay ts ≤ cs.length := by
  induction h with
  | last => exact Nat.zero_le _
  | next _ hne hcovers _ ih =>
    have hpays := hcovers.pays_le hne
    rw [Token.allPay, List.length_append, List.length_append]
    dsimp only
    omega

end Lexer

namespace Parser

variable {α β : Type} {c k l : Nat} {f : ParseM α} {g : α → ParseM β}

/-- How many numbers were given out. -/
def State.count (s : State) : Nat := s.nextId

/-- The numbers given out, those that the tokens ahead pay for and some credit come to no more than
a bound. -/
structure State.Affords (bound credit : Nat) (s : State) : Prop where
  ends : ∃ last, s.tokens.getLast? = some last ∧ last.kind = .endOfFile
  spent : s.count + Token.allPay s.tokens + credit ≤ bound

/-- Reading gives out `c` numbers more than the tokens read pay for, or fewer. -/
def Costs (c : Nat) (f : ParseM α) : Prop := ∀ bound credit,
  Leads (State.Affords bound (credit + c)) f fun _ => State.Affords bound credit

/-- So it does from a token of some kind on. -/
def CostsAt (kind : Kind) (c : Nat) (f : ParseM α) : Prop := ∀ bound credit,
  Leads (fun s => s.Affords bound (credit + c) ∧ s.token.kind = kind) f
    fun _ => State.Affords bound credit

section Rules

theorem Costs.pure {a : α} : Costs 0 (pure a) := fun _ _ => .pure fun _ hs => hs

theorem Costs.mono (h : Costs k f) (hk : k ≤ c) : Costs c f := by
  intro bound credit s hs
  have hspent := hs.spent
  exact h bound credit s ⟨hs.ends, by omega⟩

theorem Costs.bind (hf : Costs k f) (hg : ∀ a, Costs l (g a)) : Costs (l + k) (f >>= g) := by
  intro bound credit
  rw [← Nat.add_assoc]
  exact (hf bound (credit + l)).bind fun a => hg a bound credit

/-- A step for which the tokens pay. -/
theorem Costs.then (hf : Costs 0 f) (hg : ∀ a, Costs c (g a)) : Costs c (f >>= g) := hf.bind hg

theorem Costs.map {h : α → β} (hf : Costs c f) : Costs c (h <$> f) := hf

theorem Costs.at (h : Costs c f) (kind : Kind) : CostsAt kind c f :=
  fun bound credit s hs => h bound credit s hs.1

theorem CostsAt.then {kind : Kind} (hf : CostsAt kind c f) (hg : ∀ a, Costs 0 (g a)) :
    CostsAt kind c (f >>= g) :=
  fun bound credit => (hf bound credit).bind fun a => hg a bound credit

/-- What gives out no numbers pays with no token either. -/
theorem GoesOn.costs (h : GoesOn f) (hq : Quiet f) : Costs 0 f := by
  intro bound credit s hs
  obtain ⟨front, hfront⟩ := (h s).tokens
  have hspent := hs.spent
  rw [← hfront, Token.allPay_append] at hspent
  refine ⟨?_, ?_⟩
  · rw [getLast?_of_suffix (h s).tokens (List.cons_ne_nil _ _)]
    exact hs.ends
  · rw [State.count, hq s, ← State.count]
    omega

theorem Costs.kind_bind {g : Kind → ParseM β} (h : ∀ kind, CostsAt kind c (g kind)) :
    Costs c (kind >>= g) := fun bound credit s hs => h _ bound credit s ⟨hs, rfl⟩

theorem CostsAt.kind_bind {kind : Kind} {g : Kind → ParseM β} (h : CostsAt kind c (g kind)) :
    CostsAt kind c (Parser.kind >>= g) := by
  rintro bound credit s ⟨hs, rfl⟩
  exact h bound credit s ⟨hs, rfl⟩

theorem CostsAt.span_bind {kind : Kind} {g : Span → ParseM β} (h : ∀ at_, CostsAt kind c (g at_)) :
    CostsAt kind c (span >>= g) := fun bound credit s hs => h _ bound credit s hs

theorem CostsAt.intern_bind {kind : Kind} {text : String} {g : Name → ParseM β}
    (h : ∀ n, CostsAt kind c (g n)) : CostsAt kind c (intern text >>= g) :=
  fun bound credit _ hs => h _ bound credit _ ⟨⟨hs.1.ends, hs.1.spent⟩, hs.2⟩

/-- A token that is read pays. -/
theorem CostsAt.advance_bind {kind : Kind} {g : Unit → ParseM β}
    (h : Costs (c + kind.pays) (g ())) : CostsAt kind c (advance >>= g) := by
  rintro bound credit s ⟨hs, rfl⟩
  refine h bound credit (advance s).2 ?_
  obtain ⟨hends, hspent⟩ := hs
  cases hrest : s.rest with
  | nil =>
    -- the last token stays, and pays for nothing
    rw [State.tokens, hrest] at hends
    obtain ⟨last, hlast, hkind⟩ := hends
    obtain rfl : s.token = last := Option.some.inj hlast
    rw [advance_of_nil hrest]
    refine ⟨⟨s.token, by rw [State.tokens, hrest]; rfl, hkind⟩, ?_⟩
    rw [hkind]
    exact hspent
  | cons t ts =>
    have htokens : s.tokens = s.token :: t :: ts := congrArg (s.token :: ·) hrest
    rw [htokens] at hends
    rw [htokens, Token.allPay] at hspent
    rw [advance_of_cons hrest]
    refine ⟨?_, ?_⟩
    · rw [List.getLast?_cons_cons] at hends
      exact hends
    · change s.count + Token.allPay (t :: ts) + (credit + (c + s.token.kind.pays)) ≤ bound
      omega

theorem Costs.accept_bind {kind : Kind} {g : Bool → ParseM β}
    (hread : Costs (c + kind.pays) (g true)) (hleft : Costs c (g false)) :
    Costs c (accept kind >>= g) := by
  rw [accept, bind_assoc]
  refine .kind_bind fun kind' => ?_
  split
  · next heq =>
    subst heq
    rw [bind_assoc]
    exact .advance_bind hread
  · exact hleft.at _

theorem costs_freshId : Costs 1 freshId := by
  intro bound credit s hs
  refine ⟨hs.ends, ?_⟩
  have hspent := hs.spent
  change s.count + 1 + Token.allPay s.tokens + credit ≤ bound
  omega

theorem costs_kind : Costs 0 kind := goesOn_kind.costs quiet_kind

theorem costs_span : Costs 0 span := goesOn_span.costs quiet_span

theorem costs_get : Costs 0 (get : ParseM State) := goesOn_get.costs quiet_get

theorem costs_advance : Costs 0 advance := goesOn_advance.costs quiet_advance

theorem costs_accept (kind : Kind) : Costs 0 (accept kind) :=
  (goesOn_accept kind).costs (quiet_accept kind)

theorem costs_expect (p : Punctuator) : Costs 0 (expect p) :=
  (goesOn_expect p).costs (quiet_expect p)

theorem costs_endStatement : Costs 0 endStatement := goesOn_endStatement.costs quiet_endStatement

theorem costs_reportAt (at_ : Span) {m : Message} (hm : m.severity = .error)
    (args : List String) : Costs 0 (reportAt at_ m args) :=
  (goesOn_reportAt at_ hm args).costs (quiet_reportAt at_ m args)

theorem costs_report {m : Message} (hm : m.severity = .error) (args : List String) :
    Costs 0 (report m args) := (goesOn_report hm args).costs (quiet_report m args)

theorem costs_intern (text : String) : Costs 0 (intern text) :=
  (goesOn_intern text).costs (quiet_intern text)

theorem costs_checkBinding (strict : Bool) (i : Identifier) : Costs 0 (checkBinding strict i) :=
  (goesOn_checkBinding strict i).costs (quiet_checkBinding strict i)

theorem costs_checkParams (strict : Bool) (earlier : List Name) (ps : List Identifier) :
    Costs 0 (checkParams strict earlier ps) :=
  (goesOn_checkParams strict earlier ps).costs (quiet_checkParams strict earlier ps)

theorem costs_spanFrom (start : Nat) : Costs 0 (spanFrom start) :=
  (goesOn_spanFrom start).costs (quiet_spanFrom start)

/-- A name pays for itself. -/
theorem costsAt_identifier (text : String) : CostsAt (.identifier text) 0 identifier := by
  refine .span_bind fun at_ => .kind_bind ?_
  extract_lets rest
  have hrest : ∀ name, Costs 1 (rest name) := fun name => costs_freshId.bind fun _ => .pure
  exact .intern_bind fun n => .advance_bind (Costs.pure.then hrest)

/-- A name that may be missing must be paid for. -/
theorem costs_identifier : Costs 1 identifier := by
  refine costs_span.then fun at_ => costs_kind.then fun kind => ?_
  extract_lets rest
  have hrest : ∀ name, Costs 1 (rest name) := fun name => costs_freshId.bind fun _ => .pure
  split
  · exact (costs_intern _).then fun _ => costs_advance.then fun _ => Costs.pure.then hrest
  · exact (costs_report rfl _).then fun _ => (costs_intern _).then hrest

theorem Costs.nested {m : Message} {a : α} (hm : m.severity = .error) (hf : Costs 0 f) :
    Costs 0 (nested m a f) := by
  intro bound credit s hs
  rw [nested_run]
  split
  · exact costs_report hm [] bound credit s hs
  · have hinner := hf bound credit { s with depth := s.depth + 1 } ⟨hs.ends, hs.spent⟩
    exact ⟨hinner.ends, hinner.spent⟩

theorem Costs.inFunction (hf : Costs c f) : Costs c (inFunction f) := by
  intro bound credit s hs
  have hinner := hf bound credit { s with functionDepth := s.functionDepth + 1 }
    ⟨hs.ends, hs.spent⟩
  exact ⟨hinner.ends, hinner.spent⟩

theorem costs_params (fuel : Nat) : Costs 1 (params fuel) := by
  induction fuel with
  | zero => exact Costs.pure.mono (Nat.zero_le 1)
  | succ fuel ih =>
    refine Costs.bind (l := 0) costs_identifier fun p => Costs.accept_bind ?_ .pure
    exact ih.bind fun _ => .pure

end Rules

/-- What every reader costs: those that come behind a keyword are paid for by it. -/
structure AllCost (fuel : Nat) : Prop where
  statement : ∀ strict, Costs 0 (statement fuel strict)
  condition : ∀ strict, Costs 0 (condition fuel strict)
  declarators : ∀ strict, Costs 1 (declarators fuel strict)
  statements : ∀ ends strict, Costs 0 (statements fuel ends strict)
  block : ∀ strict, Costs 0 (block fuel strict)
  catchRest : ∀ strict, Costs 2 (catchRest fuel strict)
  directives : ∀ strict, Costs 0 (directives fuel strict)
  functionRest : ∀ strict declaration, Costs 3 (functionRest fuel strict declaration)
  expression : ∀ strict, Costs 0 (expression fuel strict)
  binary : ∀ strict least, Costs 0 (binary fuel strict least)
  binaryRest : ∀ strict least left, Costs 0 (binaryRest fuel strict least left)
  unary : ∀ strict, Costs 0 (unary fuel strict)
  callRest : ∀ strict start callee, Costs 0 (callRest fuel strict start callee)
  arguments : ∀ strict, Costs 0 (arguments fuel strict)
  primary : ∀ strict, Costs 0 (primary fuel strict)

section Readers

variable {fuel : Nat}

theorem costs_condition (ih : AllCost fuel) (strict : Bool) :
    Costs 0 (condition (fuel + 1) strict) :=
  (costs_expect _).then fun _ => (ih.expression strict).then fun _ =>
    (costs_expect _).then fun _ => .pure

theorem costs_block (ih : AllCost fuel) (strict : Bool) : Costs 0 (block (fuel + 1) strict) := by
  refine (costs_expect _).then fun opened => ?_
  split
  · exact (ih.statements _ strict).then fun _ => (costs_expect _).then fun _ => .pure
  · exact .pure

theorem costs_statements (ih : AllCost fuel) (ends : Kind → Bool) (strict : Bool) :
    Costs 0 (statements (fuel + 1) ends strict) := by
  refine costs_kind.then fun kind => ?_
  split
  · exact .pure
  · refine costs_span.then fun at_ => ?_
    extract_lets start
    refine (ih.statement strict).then fun s => costs_span.then fun at_ =>
      costs_kind.then fun _ => ?_
    extract_lets rest
    have hrest : ∀ u, Costs 0 (rest u) := fun _ => (ih.statements ends strict).then fun _ => .pure
    split
    · exact costs_advance.then hrest
    · exact hrest ()

theorem costs_catchRest (ih : AllCost fuel) (strict : Bool) :
    Costs 2 (catchRest (fuel + 1) strict) := by
  refine Costs.bind (l := 1) costs_freshId fun id => (costs_expect _).then fun _ => ?_
  exact Costs.bind (l := 0) costs_identifier fun _ => (costs_checkBinding strict _).then fun _ =>
    (costs_expect _).then fun _ => (ih.block strict).then fun _ => .pure

theorem costs_directives (ih : AllCost fuel) (strict : Bool) :
    Costs 0 (directives (fuel + 1) strict) := by
  refine costs_kind.then fun kind => ?_
  split
  · refine (ih.statement strict).then fun s => ?_
    split
    · exact (ih.directives _).then fun _ => .pure
    · exact .pure
  · exact .pure

theorem costs_declarators (ih : AllCost fuel) (strict : Bool) :
    Costs 1 (declarators (fuel + 1) strict) := by
  refine Costs.bind (l := 0) costs_identifier fun target =>
    (costs_checkBinding strict target).then fun _ => (costs_accept _).then fun assigned => ?_
  extract_lets rest
  have hrest : ∀ value, Costs 0 (rest value) := by
    intro value
    refine Costs.accept_bind ?_ .pure
    -- the comma pays for the next name
    exact (ih.declarators strict).bind fun _ => .pure
  split
  · exact (ih.expression strict).map.then hrest
  · exact Costs.pure.then hrest

theorem costs_functionBody (ih : AllCost fuel) (outer : Bool) :
    Costs 0 (do
      if ← expect .openBrace then
        let (ds, strict) ← directives fuel outer
        let ss ← statements fuel atBlockEnd strict
        let _ ← expect .closeBrace
        return (ds ++ ss, strict)
      return ([], outer)) := by
  refine (costs_expect _).then fun opened => ?_
  split
  · exact (ih.directives outer).then fun r => (ih.statements _ r.2).then fun _ =>
      (costs_expect _).then fun _ => .pure
  · exact .pure

/-- The function, its name and its first parameter. -/
theorem costs_functionRest (ih : AllCost fuel) (outer declaration : Bool) :
    Costs 3 (functionRest (fuel + 1) outer declaration) := by
  refine costs_span.then fun at_ => Costs.bind (l := 2) costs_freshId fun id =>
    costs_kind.then fun kind => ?_
  extract_lets named afterSelf
  have hself : ∀ self, Costs 1 (afterSelf self) := by
    intro self
    refine (costs_expect _).then fun _ => costs_kind.then fun _ => ?_
    extract_lets afterParams
    have hparams : ∀ ps, Costs 0 (afterParams ps) := by
      intro ps
      refine (costs_expect _).then fun _ =>
        (costs_functionBody ih outer).inFunction.then fun r => ?_
      have hend : Costs 0 (do
          checkParams r.2 [] ps
          return (⟨id, self, ps, r.1, r.2, ← spanFrom at_.start⟩ : FunctionDef)) :=
        (costs_checkParams _ _ ps).then fun _ => (costs_spanFrom _).then fun _ => .pure
      cases self with
      | none => exact hend
      | some i => exact (costs_checkBinding r.2 i).then fun _ => hend
    split
    · exact (Costs.pure.then hparams).mono (Nat.zero_le 1)
    · exact (costs_params fuel).bind hparams
  split
  · exact costs_identifier.map.bind hself
  · exact (Costs.pure.then hself).mono (by decide)

theorem costs_expression (ih : AllCost fuel) (strict : Bool) :
    Costs 0 (expression (fuel + 1) strict) := by
  rw [Parser.expression]
  refine Costs.nested rfl (costs_span.then fun at_ => (ih.binary strict 0).then fun left =>
    (costs_accept _).then fun assigned => ?_)
  split
  · refine (ih.expression strict).then fun value => ?_
    split
    · exact (costs_checkBinding strict _).then fun _ => .pure
    · exact (costs_reportAt _ rfl _).then fun _ => .pure
  · exact .pure

theorem costs_binary (ih : AllCost fuel) (strict : Bool) (least : Nat) :
    Costs 0 (binary (fuel + 1) strict least) :=
  (ih.unary strict).then fun e => ih.binaryRest strict least e

theorem costs_binaryRest (ih : AllCost fuel) (strict : Bool) (least : Nat) (left : Expr) :
    Costs 0 (binaryRest (fuel + 1) strict least left) := by
  refine costs_kind.then fun kind => ?_
  split
  · split
    · exact .pure
    · exact costs_advance.then fun _ => (ih.binary strict _).then fun right =>
        ih.binaryRest strict least _
  · exact .pure

theorem costs_unary (ih : AllCost fuel) (strict : Bool) : Costs 0 (unary (fuel + 1) strict) := by
  rw [Parser.unary]
  refine Costs.nested rfl (costs_span.then fun at_ => costs_kind.then fun kind => ?_)
  split
  · exact costs_advance.then fun _ => (ih.unary strict).then fun _ => .pure
  · refine costs_advance.then fun _ => (ih.unary strict).then fun e => ?_
    extract_lets rest
    have hrest : ∀ u, Costs 0 (rest u) := fun _ => (costs_spanFrom _).then fun _ => .pure
    split
    · exact (costs_reportAt _ rfl _).then hrest
    · exact hrest ()
  · split
    · exact costs_advance.then fun _ => (ih.unary strict).then fun _ => .pure
    · exact (ih.primary strict).then fun e => ih.callRest strict _ e

theorem costs_callRest (ih : AllCost fuel) (strict : Bool) (start : Nat) (callee : Expr) :
    Costs 0 (callRest (fuel + 1) strict start callee) := by
  refine (costs_accept _).then fun opened => ?_
  split
  · refine costs_kind.then fun kind => ?_
    extract_lets rest
    have hrest : ∀ args, Costs 0 (rest args) := fun args =>
      costs_span.then fun _ => (costs_expect _).then fun _ => ih.callRest strict start _
    split
    · exact Costs.pure.then hrest
    · exact (ih.arguments strict).then hrest
  · exact .pure

theorem costs_arguments (ih : AllCost fuel) (strict : Bool) :
    Costs 0 (arguments (fuel + 1) strict) := by
  refine (ih.expression strict).then fun e => (costs_accept _).then fun more => ?_
  split
  · exact (ih.arguments strict).then fun _ => .pure
  · exact .pure

theorem costs_primary (ih : AllCost fuel) (strict : Bool) :
    Costs 0 (primary (fuel + 1) strict) := by
  rw [Parser.primary]
  refine costs_span.then fun at_ => .kind_bind fun kind => ?_
  split
  case h_6 => exact .advance_bind (costs_freshId.bind fun _ => .pure)
  case h_7 => exact (costsAt_identifier _).then fun _ => .pure
  case h_8 => exact .advance_bind ((ih.functionRest strict false).bind fun _ => .pure)
  case h_9 =>
    exact (costs_advance.then fun _ => (ih.expression strict).then fun e =>
      (costs_expect _).then fun _ => .pure).at _
  case h_10 => exact ((costs_report rfl _).then fun _ => .pure).at _
  all_goals exact (costs_advance.then fun _ => .pure).at _

theorem costs_statement (ih : AllCost fuel) (strict : Bool) :
    Costs 0 (statement (fuel + 1) strict) := by
  rw [Parser.statement]
  refine Costs.nested rfl (.kind_bind fun kind => ?_)
  split
  · exact .advance_bind ((ih.declarators strict).bind fun _ =>
      costs_endStatement.then fun _ => .pure)
  · exact .advance_bind ((ih.functionRest strict true).bind fun _ => .pure)
  · refine (costs_span.then fun at_ => costs_get.then fun s => ?_).at _
    extract_lets ending reading
    have hending : ∀ argument, Costs 0 (ending argument) := fun _ =>
      costs_endStatement.then fun _ => .pure
    have hreading : ∀ u, Costs 0 (reading u) := by
      intro u
      refine costs_advance.then fun _ => costs_get.then fun s => ?_
      extract_lets t
      split
      · exact Costs.pure.then hending
      · exact (ih.expression strict).map.then hending
    split
    · exact (costs_report rfl _).then hreading
    · exact hreading ()
  · refine (costs_advance.then fun _ => (ih.condition strict).then fun t =>
      (ih.statement strict).then fun c => (costs_accept _).then fun more => ?_).at _
    split
    · exact (ih.statement strict).then fun _ => .pure
    · exact .pure
  · exact (costs_advance.then fun _ => (ih.condition strict).then fun t =>
      (ih.statement strict).then fun _ => .pure).at _
  · exact ((ih.block strict).then fun _ => .pure).at _
  · refine (costs_advance.then fun _ => (ih.block strict).then fun b => ?_).at _
    extract_lets afterHandler
    have hhandler : ∀ h, Costs 0 (afterHandler h) := by
      intro h
      refine (costs_accept _).then fun c => ?_
      extract_lets afterFinalizer
      have hfinalizer : ∀ f, Costs 0 (afterFinalizer f) := by
        intro f
        simp only [afterFinalizer]
        split
        · exact (costs_report rfl _).then fun _ => .pure
        · exact .pure
      split
      · exact (ih.block strict).map.then hfinalizer
      · exact Costs.pure.then hfinalizer
    -- the keyword of the handler pays for the clause and its name
    exact .accept_bind ((ih.catchRest strict).map.bind hhandler) (Costs.pure.then hhandler)
  · exact (costs_advance.then fun _ => (ih.expression strict).then fun e =>
      costs_endStatement.then fun _ => .pure).at _
  · exact (costs_advance.then fun _ => .pure).at _
  · exact ((costs_report rfl _).then fun _ => .pure).at _
  · exact ((costs_report rfl _).then fun _ => .pure).at _
  · exact ((ih.expression strict).then fun e => costs_endStatement.then fun _ => .pure).at _

theorem allCost_zero : AllCost 0 where
  statement _ := .pure
  condition _ := .pure
  declarators _ := Costs.pure.mono (Nat.zero_le 1)
  statements _ _ := .pure
  block _ := .pure
  catchRest _ := Costs.bind (l := 1) costs_freshId fun _ => costs_freshId.bind fun _ => .pure
  directives _ := .pure
  functionRest _ _ :=
    (Costs.bind (l := 0) costs_freshId fun _ => .pure).mono (by decide)
  expression _ := .pure
  binary _ _ := .pure
  binaryRest _ _ _ := .pure
  unary _ := .pure
  callRest _ _ _ := .pure
  arguments _ := .pure
  primary _ := .pure

theorem allCost (fuel : Nat) : AllCost fuel := by
  induction fuel with
  | zero => exact allCost_zero
  | succ fuel ih =>
    exact {
      statement := costs_statement ih
      condition := costs_condition ih
      declarators := costs_declarators ih
      statements := costs_statements ih
      block := costs_block ih
      catchRest := costs_catchRest ih
      directives := costs_directives ih
      functionRest := costs_functionRest ih
      expression := costs_expression ih
      binary := costs_binary ih
      binaryRest := costs_binaryRest ih
      unary := costs_unary ih
      callRest := costs_callRest ih
      arguments := costs_arguments ih
      primary := costs_primary ih }

end Readers

theorem costs_program (fuel : Nat) (file : String) (strict : Bool) :
    Costs 1 (program fuel file strict) :=
  Costs.bind (l := 0) costs_freshId fun _ => ((allCost fuel).directives strict).then fun r =>
    ((allCost fuel).statements _ r.2).then fun _ => costs_span.then fun _ => .pure

/-- A text has at most one node more than characters. -/
theorem nodeCount_le (file text : String) (strict : Bool) (names : Interner) :
    (parse file text strict names).nodeCount ≤ text.length + 1 := by
  have hpay := (Lexer.tiles_read text).allPay_le
  rw [String.length_toList] at hpay
  have hstart : (State.start (Lexer.read text).tokens names).Affords (text.length + 1) 1 := by
    refine ⟨?_, ?_⟩ <;> rw [tokens_start_read]
    · exact Lexer.getLast?_read text
    · change 0 + Token.allPay (Lexer.read text).tokens + 1 ≤ text.length + 1
      omega
  have hspent := (costs_program (fuelFor (Lexer.read text).tokens) file strict
    (text.length + 1) 0 _ (by rwa [Nat.zero_add])).spent
  exact Nat.le_trans (Nat.le_add_right _ _) (Nat.le_trans (Nat.le_add_right _ _) hspent)

end Parser

end ScopeChain
