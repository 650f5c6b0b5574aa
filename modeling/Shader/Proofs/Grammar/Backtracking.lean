import Shader.Proofs.Grammar.Depth

/-!
# Backtracking

A production either reads something or leaves the cursor where it was; it never touches the items,
reports nothing, and moves the furthest place on to every place that it has looked at. So an
alternative can be tried where another one has failed, and a loop that goes on only after reading
something comes to an end.
-/

namespace Shader

open Shader.Parser Shader.Grammar Ebnf

/-- What has a production in the grammar. -/
inductive Phrase where
  | expression | assignment | conditional
  /-- operands with operators of a number of the tightest levels between them -/
  | binary (levels : Nat)
  | unary | selection | primary | args
  | stmt | block | ifStmt | forStmt | whileStmt | doStmt | branchStmt | returnStmt | exprStmt
  | varSpec | varDecl | param | paramList | layout | intLit | typeName | name
  | funcDecl | globalVar | definition

namespace Phrase

/-- What the production builds. -/
def Node : Phrase → Type
  | expression | assignment | conditional | binary _ | unary | selection | primary => Expr
  | args => List Expr
  | stmt | ifStmt | forStmt | whileStmt | doStmt | branchStmt | returnStmt | exprStmt => Stmt
  | block => Pos × List Stmt
  | varSpec | varDecl => VarDecl
  | param => Param
  | paramList => List Param
  | layout => List LayoutEntry
  | intLit => Nat
  | typeName => DataType
  | name => Name
  | funcDecl => FuncDecl
  | globalVar => GlobalVar
  | definition => Def

/-- The production with a bound. -/
def parser (n : Nat) : (x : Phrase) → Parser x.Node
  | expression => Grammar.expression n
  | assignment => Grammar.assignment n
  | conditional => Grammar.conditional n
  | binary levels => Grammar.binary n levels
  | unary => Grammar.unary n
  | selection => Grammar.selection n
  | primary => Grammar.primary n
  | args => Grammar.args n
  | stmt => Grammar.stmt n
  | block => Grammar.block n
  | ifStmt => Grammar.ifStmt n
  | forStmt => Grammar.forStmt n
  | whileStmt => Grammar.whileStmt n
  | doStmt => Grammar.doStmt n
  | branchStmt => Grammar.branchStmt
  | returnStmt => Grammar.returnStmt n
  | exprStmt => Grammar.exprStmt n
  | varSpec => Grammar.varSpec n
  | varDecl => Grammar.varDecl n
  | param => Grammar.param
  | paramList => Grammar.paramList n
  | layout => Grammar.layout n
  | intLit => Grammar.intLit
  | typeName => Parser.typeName
  | name => Parser.name
  | funcDecl => Grammar.funcDecl n
  | globalVar => Grammar.globalVar n
  | definition => Grammar.definition n

/-- Every production reads something or fails where it started. -/
theorem production (n : Nat) : (x : Phrase) → Production (x.parser n) fun _ w => w ≠ [] := by
  have solid : ∀ {α : Type} {p : Parser α} {e : Ebnf Nonterminal} {good : α → Prop},
      Production p (fun x => Spells e (good x)) → e.isSolid = true →
      Production p fun _ w => w ≠ [] :=
    fun hp he => hp.weaken fun _ _ hw => word_ne_nil hw.word he
  intro x
  cases x with
  | expression => exact solid (production_expression n) rfl
  | assignment => exact solid (production_assignment n) rfl
  | conditional => exact solid (production_conditional n) rfl
  | binary levels => exact solid (production_binary n levels) rfl
  | unary => exact solid (production_unary n) rfl
  | selection => exact solid (production_selection n) rfl
  | primary => exact solid (production_primary n) rfl
  | args => exact solid (production_args n) rfl
  | stmt => exact solid (production_stmt n) rfl
  | block => exact solid (production_block n) rfl
  | ifStmt => exact solid (production_ifStmt n) rfl
  | forStmt => exact solid (production_forStmt n) rfl
  | whileStmt => exact solid (production_whileStmt n) rfl
  | doStmt => exact solid (production_doStmt n) rfl
  | branchStmt =>
    refine production_branchStmt.weaken fun _ _ hw => ?_
    obtain ⟨i, j, rfl, -, -⟩ := hw
    exact List.cons_ne_nil _ _
  | returnStmt => exact solid (production_returnStmt n) rfl
  | exprStmt => exact solid (production_exprStmt n) rfl
  | varSpec => exact solid (production_varSpec n) rfl
  | varDecl => exact solid (production_varDecl n) rfl
  | param => exact solid production_param rfl
  | paramList => exact solid (production_paramList n) rfl
  | layout => exact solid (production_layout n) rfl
  | intLit => exact solid production_intLit rfl
  | typeName => exact solid production_typeName rfl
  | name => exact solid production_name rfl
  | funcDecl => exact solid (production_funcDecl n) rfl
  | globalVar => exact solid (production_globalVar n) rfl
  | definition => exact solid (production_definition n) rfl

/-- The bound of a production makes no difference where it is large enough. -/
theorem agree {k n m : Nat} (hn : k + 1 < n) (hm : k + 1 < m) (x : Phrase) :
    Agree k (x.parser n) (x.parser m) := by
  have hn' : k < n := by omega
  have hm' : k < m := by omega
  cases x with
  | expression => exact agree_expression hn' hm'
  | assignment => exact agree_assignment hn' hm'
  | conditional => exact agree_conditional hn' hm'
  | binary levels => exact agree_binary hn' hm' levels
  | unary => exact agree_unary hn' hm'
  | selection => exact agree_selection hn' hm'
  | primary => exact agree_primary hn' hm'
  | args => exact agree_args hn' hm'
  | stmt => exact agree_stmt hn hm
  | block => exact agree_block hn hm
  | ifStmt => exact agree_ifStmt hn hm
  | forStmt => exact agree_forStmt hn hm
  | whileStmt => exact agree_whileStmt hn hm
  | doStmt => exact agree_doStmt hn hm
  | branchStmt => exact .refl _
  | returnStmt => exact agree_returnStmt hn' hm'
  | exprStmt => exact agree_exprStmt hn' hm'
  | varSpec => exact agree_varSpec hn' hm'
  | varDecl => exact agree_varDecl hn' hm'
  | param => exact .refl _
  | paramList => exact agree_paramList hn hm
  | layout => exact agree_layout hn hm
  | intLit => exact .refl _
  | typeName => exact .refl _
  | name => exact .refl _
  | funcDecl => exact agree_funcDecl hn hm
  | globalVar => exact agree_globalVar hn hm
  | definition => exact agree_definition hn hm

end Phrase

/-! ## The furthest place -/

theorem le_foldr_max {log : List Nat} {far : Nat} : far ≤ log.foldr max far := by
  induction log with
  | nil => exact Nat.le_refl _
  | cons c log ih => exact ih.trans (Nat.le_max_right _ _)

theorem le_foldr_max_of_mem {log : List Nat} {far c : Nat} (h : c ∈ log) :
    c ≤ log.foldr max far := by
  induction log with
  | nil => cases h
  | cons d log ih =>
    rcases List.mem_cons.1 h with rfl | h
    · exact Nat.le_max_left _ _
    · exact (ih h).trans (Nat.le_max_right _ _)

theorem foldr_max_lt {log : List Nat} {far bound : Nat} (hfar : far < bound)
    (hlog : ∀ c ∈ log, c < bound) : log.foldr max far < bound := by
  induction log with
  | nil => exact hfar
  | cons c log ih =>
    obtain ⟨hc, hlog⟩ := List.forall_mem_cons.1 hlog
    exact Nat.max_lt.2 ⟨hc, ih hlog⟩

/-- The cursor stays between the start and the furthest place, and both within the items. -/
theorem Parsing.Goes.bounds {s s' : Parsing} {c : Nat} (h : s.Goes s')
    (hc : s.stream.cursor = c) (hle : c ≤ s.stream.far)
    (hlt : s.stream.far < s.stream.items.length) :
    s'.stream.cursor.toNat ≤ s'.stream.far ∧ s'.stream.far < s'.stream.items.length := by
  obtain ⟨log, -, hfar, hlog, hcursor⟩ := h.moves
  rw [hfar, h.items]
  refine ⟨?_, foldr_max_lt hlt hlog⟩
  rcases hcursor with hcursor | hmem
  · rw [hcursor, hc, Int.toNat_natCast]
    exact hle.trans le_foldr_max
  · exact le_foldr_max_of_mem hmem

/-! ## All productions -/

/-- What a production may do to a stream, and how far it gets. -/
structure Backtracks (s : Parsing) (found : Bool) (s' : Parsing) : Prop where
  /-- the items are the same -/
  items : s'.stream.items = s.stream.items
  /-- nothing is reported -/
  reports : s'.reports = s.reports
  /-- if nothing is found, the cursor is where it was -/
  failure : found = false → s'.stream.cursor = s.stream.cursor
  /-- if something is found, the cursor has moved on, but not past the last item -/
  progress : found = true → s.stream.cursor < s'.stream.cursor ∧
    s'.stream.cursor < s'.stream.items.length
  /-- the furthest place is the greatest of the one before and those that reading has moved to -/
  furthest : ∃ log, s'.moves = log ++ s.moves ∧ s'.stream.far = log.foldr max s.stream.far
  /-- the cursor is never behind the furthest place, and that is never behind the last item -/
  bounds : s.stream.cursor ≤ s.stream.far → s.stream.far < s.stream.items.length →
    0 ≤ s'.stream.cursor ∧ s'.stream.cursor ≤ s'.stream.far ∧
      s'.stream.far < s'.stream.items.length

theorem backtracks_of_production {α : Type} {p : Parser α} {s s' : Parsing} {r : Option α}
    (hp : Production p fun _ w => w ≠ []) (hs : s.Ready) (hrun : p s = (r, s')) :
    Backtracks s r.isSome s' := by
  obtain ⟨hgoes, hyield⟩ := (hp s hs).1 r s' hrun
  obtain ⟨c, hc, hlt⟩ := hs.inside
  obtain ⟨c', hc', hlt'⟩ := hgoes.ready.inside
  obtain ⟨log, hmoves, hfar, -, -⟩ := hgoes.moves
  refine ⟨hgoes.items, hgoes.reports, fun hnone => ?_, fun hsome => ?_, ⟨log, hmoves, hfar⟩,
    fun hle hfar => ?_⟩
  · rw [Option.isSome_eq_false_iff, Option.isNone_iff_eq_none] at hnone
    exact (hp s hs).2 s' (hnone ▸ hrun)
  · obtain ⟨x, rfl⟩ := Option.isSome_iff_exists.1 hsome
    obtain ⟨w, hw, hne⟩ := hyield x rfl
    have hlen := congrArg List.length hw
    have hpos := List.length_pos_iff.2 hne
    rw [List.length_append, Parsing.left, Parsing.left, List.length_drop, List.length_drop,
      hgoes.items, hc, hc', Int.toNat_natCast, Int.toNat_natCast] at hlen
    rw [hc, hc']
    rw [hgoes.items] at hlt' ⊢
    omega
  · have hbounds := hgoes.bounds hc (by omega) hfar
    rw [hc', Int.toNat_natCast] at hbounds
    omega

/-- Every production comes to an end, with a result that no larger bound changes; where it fails,
only the record of the furthest place is left of the attempt. -/
theorem Phrase.backtracks (x : Phrase) {items : List Item} {s : Parsing} {c : Nat}
    (hitems : s.stream.items = closeItems items) (hcursor : s.stream.cursor = c)
    (hlt : c < s.stream.items.length) :
    ∃ (node : Option x.Node) (s' : Parsing),
      (∀ n, depthBound s.stream.items ≤ n → x.parser n s = (node, s')) ∧
        Backtracks s node.isSome s' := by
  have hready : s.Ready := ⟨⟨c, hcursor, hlt⟩, hitems ▸ getLast?_closeItems items⟩
  rcases hrun : x.parser (depthBound s.stream.items) s with ⟨node, s'⟩
  refine ⟨node, s', fun n hn => ?_, backtracks_of_production (x.production _) hready hrun⟩
  have hlen : s.left.length + 1 < depthBound s.stream.items :=
    Nat.succ_lt_succ (Nat.lt_succ_of_le s.length_left_le)
  exact (x.agree (hlen.trans_le hn) hlen s hready (Nat.le_refl _)).trans hrun

/-- A call that is not closed, which is given up at its start. -/
def openCall : List Item := [⟨.name, "f", .implicit⟩, ⟨.delim .lparen, "(", .implicit⟩]

theorem Phrase.backtracks_openCall : ∃ (node : Option Expr) (s' : Parsing),
    (∀ n, 5 ≤ n → Grammar.expression n { stream := .ofItems openCall } = (node, s')) ∧
      Backtracks { stream := .ofItems openCall } node.isSome s' := by
  have hitems : (Stream.ofItems openCall).items = closeItems openCall := rfl
  exact Phrase.expression.backtracks (s := { stream := .ofItems openCall }) hitems rfl (by decide)

end Shader
