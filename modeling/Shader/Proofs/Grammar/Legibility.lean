import Shader.Proofs.Grammar.Renderings

/-!
# Parsed expressions are legible

A parsed expression takes its names and numbers from the items of its text, and a sequence is built
only where a comma has been read. So its rendering can be scanned, and says what its pieces say.
-/

namespace Shader

/-! ## Sequences -/

namespace Expr

/-- Every sequence in an expression has a second part. -/
def Branched (x : Expr) : Prop := ∀ first : Expr, ¬ (seq first []).Occurs x

/-- A node is as it should be if its parts are, unless it is an expression between commas with one
part. -/
theorem branched_of_children {x : Expr} (hx : ∀ first, x ≠ seq first [])
    (h : ∀ y ∈ x.children, y.Branched) : x.Branched := by
  intro first hocc
  rcases hocc.cases_tail with heq | ⟨y, hocc, hy⟩
  · exact hx first heq
  · exact h y hy first hocc

end Expr

namespace Parser

variable {α β : Type}

/-- All that a parser yields has a property. -/
def Makes (p : Parser α) (P : α → Prop) : Prop := ∀ s x s', p s = (some x, s') → P x

namespace Makes

variable {p : Parser α} {f : α → Parser β} {P : α → Prop} {Q : β → Prop}

theorem pure {x : α} (h : P x) : Makes (Pure.pure x) P := by
  rintro s _ _ ⟨⟩
  exact h

theorem fail : Makes (fail : Parser α) P := by
  rintro s _ _ ⟨⟩

/-- The second parser may use what is known of the result of the first. -/
theorem bind (h : Makes p P) (hf : ∀ x, P x → Makes (f x) Q) : Makes (p >>= f) Q := by
  intro s y s' hrun
  obtain ⟨x, t, hx, hy⟩ := bind_eq_some hrun
  exact hf x (h s x t hx) t y s' hy

/-- What was read before does not matter. -/
theorem behind (hf : ∀ x, Makes (f x) Q) : Makes (p >>= f) Q :=
  bind (P := fun _ => True) (fun _ _ _ _ => trivial) fun x _ => hf x

theorem orReset {m : Int} (h : Makes p P) : Makes (orReset m p) P := by
  intro s x s' hrun
  rw [orReset_run] at hrun
  split at hrun
  next heq =>
    cases hrun
    exact h s _ _ heq
  next => cases hrun

/-- Both ways on from an optional token make what they should. -/
theorem accept {t : Token} {yes no : Parser β} (hyes : Makes yes Q) (hno : Makes no Q) :
    Makes (Parser.accept t >>= fun b => if b = true then yes else no) Q :=
  behind fun b => by
    cases b with
    | true => exact hyes
    | false => exact hno

end Makes

end Parser

namespace Grammar

open Shader.Parser Shader.Expr

/-- Lists are not empty. -/
theorem makes_commaList {α : Type} {p : Parser α} {P : α → Prop} (hp : Makes p P) :
    ∀ n, Makes (commaList p n) fun xs => xs ≠ [] ∧ ∀ x ∈ xs, P x
  | 0 => .fail
  | n + 1 => by
    refine hp.bind fun x hx => .accept ?_ ?_
    · refine (makes_commaList hp n).bind fun xs hxs => .pure ⟨List.cons_ne_nil _ _, ?_⟩
      exact List.forall_mem_cons.2 ⟨hx, hxs.2⟩
    · exact .pure ⟨List.cons_ne_nil _ _, List.forall_mem_singleton.2 hx⟩

section

variable {a : Parser Expr} (ha : Makes a Branched) (n : Nat)
include ha

/-- A node for several expressions is only made behind a comma, so there are at least two. -/
theorem makes_expressionOf : Makes (expressionOf a n) Branched := by
  refine .behind fun _ => ha.bind fun x hx => .orReset (.accept ?_ (.pure hx))
  refine (makes_commaList ha n).bind fun xs hxs => .pure (branched_of_children ?_ ?_)
  · rintro first ⟨⟩
    exact hxs.1 rfl
  · exact List.forall_mem_cons.2 ⟨hx, hxs.2⟩

theorem makes_argsOf : Makes (argsOf a n) fun xs => ∀ x ∈ xs, x.Branched := by
  refine .behind fun _ => .accept (.pure nofun) (.orReset ?_)
  exact (makes_commaList ha n).bind fun xs hxs => .behind fun _ => .pure hxs.2

/-- Parentheses leave what is in them, and all other forms make nodes of their own. -/
theorem makes_primaryOf : Makes (primaryOf a n) Branched := by
  refine .behind fun _ => .behind fun item => ?_
  split
  · refine .orReset (.behind fun name => .behind fun t => ?_)
    split
    · refine .behind fun _ => (makes_argsOf ha n).bind fun xs hxs => .pure ?_
      exact branched_of_children nofun hxs
    · refine .behind fun _ => (makes_expressionOf ha n).bind fun x hx => .behind fun _ => .pure ?_
      exact branched_of_children nofun (List.forall_mem_singleton.2 hx)
    · exact .pure (branched_of_children nofun nofun)
  · refine .orReset (.behind fun _ => .behind fun _ => .behind fun _ => ?_)
    exact (makes_argsOf ha n).bind fun xs hxs => .pure (branched_of_children nofun hxs)
  · exact .behind fun _ => .pure (branched_of_children nofun nofun)
  · exact .behind fun _ => .pure (branched_of_children nofun nofun)
  · exact .behind fun _ => .pure (branched_of_children nofun nofun)
  · refine .orReset (.behind fun _ => ?_)
    exact (makes_expressionOf ha n).bind fun x hx => .behind fun _ => .pure hx
  · exact .fail

omit ha in
/-- Selections put their nodes around what they select from. -/
theorem makes_selections : ∀ (n : Nat) {x : Expr}, x.Branched → Makes (selections x n) Branched
  | 0, _, _ => .fail
  | n + 1, x, hx => by
    refine .behind fun t => ?_
    split
    · exact .behind fun _ => .pure (branched_of_children nofun (List.forall_mem_singleton.2 hx))
    · refine .behind fun _ => .behind fun sel => ?_
      split
      · exact makes_selections n (branched_of_children nofun (List.forall_mem_singleton.2 hx))
      · exact .fail
    · exact .pure hx

theorem makes_selectionOf : Makes (selectionOf (primaryOf a n) n) Branched :=
  .behind fun _ => (makes_primaryOf ha n).bind fun _ hx => .orReset (makes_selections n hx)

omit ha in
theorem makes_unaryOf {p : Parser Expr} (hp : Makes p Branched) :
    ∀ n, Makes (unaryOf p n) Branched
  | 0 => .fail
  | n + 1 => by
    refine .behind fun item => ?_
    split
    · refine .behind fun _ => .orReset (.behind fun _ => (makes_unaryOf hp n).bind fun x hx => ?_)
      exact .pure (branched_of_children nofun (List.forall_mem_singleton.2 hx))
    · exact hp

omit ha in
/-- Operators put their nodes around what has been read before them. -/
theorem makes_chain {p : Parser Expr} {level : Nat} (hp : Makes p Branched) :
    ∀ (n : Nat) {x : Expr}, x.Branched → Makes (chain level p x n) Branched
  | 0, _, _ => .fail
  | n + 1, x, hx => by
    refine .behind fun t => ?_
    split
    · refine .behind fun _ => hp.bind fun y hy => makes_chain hp n (branched_of_children nofun ?_)
      exact List.forall_mem_cons.2 ⟨hx, List.forall_mem_singleton.2 hy⟩
    · exact .pure hx

omit ha in
theorem makes_binaryOf {p : Parser Expr} (hp : Makes p Branched) (n : Nat) :
    ∀ k, Makes (binaryOf p n k) Branched
  | 0 => hp
  | k + 1 => by
    have ih := makes_binaryOf hp n k
    exact .behind fun _ => ih.bind fun _ hx => .orReset (makes_chain ih n hx)

theorem makes_conditionalOf {p : Parser Expr} (hp : Makes p Branched) :
    Makes (conditionalOf p a n) Branched := by
  refine .behind fun _ => hp.bind fun c hc => .orReset (.accept ?_ (.pure hc))
  refine (makes_expressionOf ha n).bind fun x hx => .behind fun _ => ha.bind fun y hy => ?_
  refine .pure (branched_of_children nofun (List.forall_mem_cons.2 ⟨hc, ?_⟩))
  exact List.forall_mem_cons.2 ⟨hx, List.forall_mem_singleton.2 hy⟩

end

/-- All expressions that are parsed, by induction on the bound. -/
theorem makes_assignment : ∀ n, Makes (assignment n) Branched
  | 0 => .fail
  | n + 1 => by
    have ih := makes_assignment n
    have hunary := makes_unaryOf (makes_selectionOf ih n) n
    have hbinary := makes_binaryOf hunary n topLevel
    refine .behind fun _ => (makes_conditionalOf ih n hbinary).bind fun x hx => .orReset ?_
    refine .behind fun t => ?_
    split
    · refine .behind fun _ => ih.bind fun y hy => .pure (branched_of_children nofun ?_)
      exact List.forall_mem_cons.2 ⟨hx, List.forall_mem_singleton.2 hy⟩
    · exact .pure hx

end Grammar

open Shader.Grammar Shader.Parser

/-! ## Sources -/

/-- An expression up to the end of the text. -/
def wholeExpr (n : Nat) : Parser Expr := do
  let x ← expression n <|> stuck
  if (← token).isEof then return x else stuck

/-- Parsing an expression succeeds with what its parser makes, if the scan has no reports. -/
theorem Source.parseExpr_eq_some {s : Source} {x : Expr} {s' : Parsing}
    (h : wholeExpr (depthBound s.scan.items)
      { stream := { items := s.scan.items }, reports := s.scan.reports } = (some x, s')) :
    s.parseExpr = if s'.reports.isEmpty then .ok x else .error s'.reports := by
  unfold wholeExpr at h
  unfold Source.parseExpr
  dsimp only
  rw [h]

theorem Source.parseExpr_eq_none {s : Source} {s' : Parsing}
    (h : wholeExpr (depthBound s.scan.items)
      { stream := { items := s.scan.items }, reports := s.scan.reports } = (none, s')) :
    s.parseExpr = .error s'.reports := by
  unfold wholeExpr at h
  unfold Source.parseExpr
  dsimp only
  rw [h]

/-- Being stuck makes a report and no node. -/
theorem stuck_run {α : Type} (s : Parsing) : ∃ s' more,
    (stuck : Parser α) s = (none, s') ∧ s'.reports = s.reports ++ more := ⟨_, _, rfl, rfl⟩

/-- Either an expression is read and the end of the text follows, or there may be a report. -/
theorem wholeExpr_cases {n : Nat} {s t : Parsing} (hs : s.Ready) {r : Option Expr}
    (hrun : expression n s = (r, t)) : t.reports = s.reports ∧
    ((∃ x i rest, r = some x ∧ t.left = i :: rest ∧ i.token = .eof ∧ wholeExpr n s = (some x, t)) ∨
      (∀ x, r = some x → ∀ i ∈ t.left.head?, i.token ≠ .eof) ∧
        ∃ s' more, wholeExpr n s = (none, s') ∧ s'.reports = t.reports ++ more) := by
  have hgoes := ((production_expression n s hs).1 _ _ hrun).1
  refine ⟨hgoes.reports, ?_⟩
  unfold wholeExpr
  rcases r with _ | x
  · obtain ⟨s', more, hstuck, hmore⟩ := stuck_run (α := Expr) t
    refine .inr ⟨nofun, s', more, bind_none ?_, hmore⟩
    rw [orElse_run, hrun]
    exact hstuck
  · obtain ⟨i, rest, hleft, -⟩ := hgoes.ready.exists_cons
    have hbind : ∀ f : Expr → Parser Expr, ((expression n <|> stuck) >>= f) s = f x t := by
      intro f
      refine bind_some ?_
      rw [orElse_run, hrun]
    rw [hbind, token_bind hgoes.ready hleft]
    by_cases hi : i.token = .eof
    · rw [if_pos (isEof_iff.2 hi)]
      exact .inl ⟨x, i, rest, rfl, hleft, hi, rfl⟩
    · obtain ⟨s', more, hstuck, hmore⟩ := stuck_run (α := Expr) t
      rw [if_neg (mt isEof_iff.1 hi)]
      refine .inr ⟨fun _ _ j hj => ?_, s', more, hstuck, hmore⟩
      rw [hleft] at hj
      exact Option.some.inj hj ▸ hi

/-- A parsed expression is legible. -/
theorem Source.legible_parseExpr {s : Source} {x : Expr} (h : s.parseExpr = .ok x) : x.Legible := by
  rcases hrun : expression (depthBound s.scan.items)
    { stream := { items := s.scan.items }, reports := s.scan.reports } with ⟨r, t⟩
  have hread : r = some x := by
    rcases (wholeExpr_cases s.ready_scan hrun).2 with ⟨y, i, rest, hr, -, -, hwhole⟩ |
        ⟨-, s', more, hwhole, -⟩
    · rw [parseExpr_eq_some hwhole] at h
      split at h
      · cases h
        exact hr
      · cases h
    · rw [parseExpr_eq_none hwhole] at h
      cases h
  subst hread
  have hbranched : x.Branched := makes_expressionOf (makes_assignment _) _ _ _ _ hrun
  obtain ⟨w, hw, hkeeps⟩ := ((keeps_expression _ _ s.ready_scan).1 _ _ hrun).2 x rfl
  have hspelled : ∀ a ∈ x.atoms, a.item.Spelled := by
    intro a ha
    refine s.spelled_scan a.item ?_
    have hmem : a.item ∈ w := hkeeps.mem (List.mem_map_of_mem ha)
    have hleft : s.scan.items = w ++ t.left := hw
    rw [hleft]
    exact List.mem_append_left _ hmem
  intro e he
  have hatoms : ∀ a ∈ e.atoms, a.item.Spelled := fun a ha => hspelled a (he.atoms_sublist.mem ha)
  cases e with
  | name n => exact hatoms (.var n) List.mem_cons_self
  | number pos kind text => exact hatoms (.number pos kind text) List.mem_cons_self
  | call fn args => exact hatoms (.func fn) List.mem_cons_self
  | index base i => exact hatoms (.var base) List.mem_cons_self
  | seq first rest =>
    rintro rfl
    exact hbranched first he
  | _ => trivial

end Shader
