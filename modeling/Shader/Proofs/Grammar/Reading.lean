import Mathlib.Data.List.Infix
import Shader.Proofs.Grammar.Words

/-!
# Reading

What a parser does to a stream whose cursor is at an item. `Parsing.Goes` says what no parser can
undo or spoil: the items and the reports stay, the cursor stays within the items, and the furthest
place is the greatest of the one before and those that reading has moved to meanwhile.

`Part` says of a parser what it yields and which items it has read for it, as a predicate on both.
A `Production` in addition leaves the cursor where it was if it fails. Both are composed along the
definition of a parser: a production is a part, and parts behind a production make a production if
the cursor is reset when they fail.
-/

namespace Shader

/-! ## Streams that are being parsed -/

theorem getLast?_closeItems (items : List Item) :
    ∃ e, (closeItems items).getLast? = some e ∧ e.token = .eof := by
  unfold closeItems
  split
  · exact ⟨_, rfl, rfl⟩
  next last hlast =>
    split
    next heof => exact ⟨last, hlast, Grammar.isEof_iff.1 heof⟩
    next => exact ⟨_, List.getLast?_concat, rfl⟩

namespace Parsing

/-- The items from the cursor on. -/
def left (s : Parsing) : List Item := s.stream.items.drop s.stream.cursor.toNat

/-- The cursor is at an item, and the last item is the end of the text. -/
structure Ready (s : Parsing) : Prop where
  /-- the cursor is at an item -/
  inside : ∃ c : Nat, s.stream.cursor = c ∧ c < s.stream.items.length
  /-- the last item is the end of the text -/
  closed : ∃ i, s.stream.items.getLast? = some i ∧ i.token = .eof

/-- What reading may do. -/
structure Goes (s s' : Parsing) : Prop where
  /-- the cursor is at an item -/
  ready : s'.Ready
  /-- the items are the same -/
  items : s'.stream.items = s.stream.items
  /-- nothing is reported -/
  reports : s'.reports = s.reports
  /-- the furthest place is one that reading has moved to, or the old one -/
  moves : ∃ log, s'.moves = log ++ s.moves ∧ s'.stream.far = log.foldr max s.stream.far ∧
    (∀ m ∈ log, m < s.stream.items.length) ∧
    (s'.stream.cursor = s.stream.cursor ∨ s'.stream.cursor.toNat ∈ log)

variable {s s' s'' : Parsing}

theorem Goes.refl (h : s.Ready) : s.Goes s :=
  ⟨h, rfl, rfl, [], rfl, rfl, nofun, .inl rfl⟩

theorem Goes.trans (h₁ : s.Goes s') (h₂ : s'.Goes s'') : s.Goes s'' := by
  obtain ⟨log₁, hmoves₁, hfar₁, hlt₁, hcursor₁⟩ := h₁.moves
  obtain ⟨log₂, hmoves₂, hfar₂, hlt₂, hcursor₂⟩ := h₂.moves
  refine ⟨h₂.ready, h₂.items.trans h₁.items, h₂.reports.trans h₁.reports, log₂ ++ log₁, ?_, ?_,
    fun m hm => ?_, ?_⟩
  · rw [hmoves₂, hmoves₁, List.append_assoc]
  · rw [hfar₂, hfar₁, List.foldr_append]
  · rcases List.mem_append.1 hm with hm | hm
    · exact h₁.items ▸ hlt₂ m hm
    · exact hlt₁ m hm
  · rcases hcursor₂ with hcursor₂ | hmem
    · rw [hcursor₂]
      exact hcursor₁.imp_right fun hmem => List.mem_append_right _ hmem
    · exact .inr (List.mem_append_left _ hmem)

/-- The cursor is reset to where it was. -/
theorem Goes.reset (h : s.Goes s') (hs : s.Ready) :
    s.Goes { s' with stream := s'.stream.reset s.stream.cursor } := by
  obtain ⟨log, hmoves, hfar, hlt, -⟩ := h.moves
  refine ⟨⟨?_, h.ready.closed⟩, h.items, h.reports, log, hmoves, hfar, hlt, .inl rfl⟩
  obtain ⟨c, hc, hlt⟩ := hs.inside
  exact ⟨c, hc, h.items ▸ hlt⟩

theorem Goes.left_eq (h : s.Goes s') (hcursor : s'.stream.cursor = s.stream.cursor) :
    s'.left = s.left := by
  rw [left, left, h.items, hcursor]

/-- There is an item at the cursor, and the end of the text is the last item from there. -/
theorem Ready.exists_cons (h : s.Ready) : ∃ i rest, s.left = i :: rest ∧
    s.stream.items[s.stream.cursor.toNat]? = some i ∧ (i.token ≠ .eof → rest ≠ []) := by
  obtain ⟨c, hc, hlt⟩ := h.inside
  obtain ⟨e, he, heof⟩ := h.closed
  refine ⟨s.stream.items[c], s.stream.items.drop (c + 1), ?_, ?_, fun hne hnil => hne ?_⟩
  · rw [left, hc, Int.toNat_natCast]
    exact List.drop_eq_getElem_cons hlt
  · rw [hc, Int.toNat_natCast]
    exact List.getElem?_eq_getElem hlt
  · have hlast : s.stream.items.length = c + 1 := by
      have hle := List.drop_eq_nil_iff.1 hnil
      omega
    rw [List.getLast?_eq_getElem?, hlast, Nat.add_sub_cancel, List.getElem?_eq_getElem hlt] at he
    rw [Option.some.inj he]
    exact heof

/-- The end of the text is behind every other item. -/
theorem Ready.rest_ne_nil (h : s.Ready) {i : Item} {rest : List Item} (hleft : s.left = i :: rest)
    (hne : i.token ≠ .eof) : rest ≠ [] := by
  obtain ⟨j, rest', hleft', -, hrest⟩ := h.exists_cons
  obtain ⟨rfl, rfl⟩ := List.cons.inj (hleft.symm.trans hleft')
  exact hrest hne

theorem length_left_le (s : Parsing) : s.left.length ≤ s.stream.items.length := by
  rw [left, List.length_drop]
  omega

end Parsing

namespace Parser

variable {α β : Type} {p : Parser α} {s s' : Parsing}

/-! ## The primitives -/

theorem bind_run (p : Parser α) (f : α → Parser β) (s : Parsing) : (p >>= f) s =
    match p s with
    | (some x, s) => f x s
    | (none, s) => (none, s) := rfl

theorem bind_some {f : α → Parser β} {x : α} (h : p s = (some x, s')) : (p >>= f) s = f x s' := by
  rw [bind_run, h]

theorem bind_none {f : α → Parser β} (h : p s = (none, s')) : (p >>= f) s = (none, s') := by
  rw [bind_run, h]

theorem bind_eq_some {f : α → Parser β} {y : β} {s'' : Parsing}
    (h : (p >>= f) s = (some y, s'')) : ∃ x s', p s = (some x, s') ∧ f x s' = (some y, s'') := by
  rcases hp : p s with ⟨_ | x, s'⟩
  · rw [bind_none hp] at h
    cases h
  · exact ⟨x, s', rfl, (bind_some hp).symm.trans h⟩

theorem orElse_run (p q : Parser α) (s : Parsing) : (p <|> q) s =
    match p s with
    | (some x, s) => (some x, s)
    | (none, s) => q s := rfl

theorem orReset_run (m : Int) (p : Parser α) (s : Parsing) : orReset m p s =
    match p s with
    | (some x, s) => (some x, s)
    | (none, s) => (none, { s with stream := s.stream.reset m }) := rfl

/-- Looking at the item at the cursor. -/
theorem current_run (h : s.Ready) {i : Item} {rest : List Item} (hleft : s.left = i :: rest) :
    current s = (some i, s) := by
  obtain ⟨c, hc, hlt⟩ := h.inside
  obtain ⟨j, rest', hleft', hget, -⟩ := h.exists_cons
  obtain ⟨rfl, rfl⟩ := List.cons.inj (hleft.symm.trans hleft')
  have hmin : min c (s.stream.items.length - 1) = c := by omega
  rw [hc, Int.toNat_natCast] at hget
  simp [current, peek, Stream.peek?, hc, hmin, hget]

theorem current_bind {f : Item → Parser β} (h : s.Ready) {i : Item} {rest : List Item}
    (hleft : s.left = i :: rest) : (current >>= f) s = f i s := bind_some (current_run h hleft)

theorem token_bind {f : Token → Parser β} (h : s.Ready) {i : Item} {rest : List Item}
    (hleft : s.left = i :: rest) : (token >>= f) s = f i.token s :=
  bind_some (bind_some (current_run h hleft))

theorem pos_bind {f : Pos → Parser β} (h : s.Ready) {i : Item} {rest : List Item}
    (hleft : s.left = i :: rest) : (pos >>= f) s = f i.pos s :=
  bind_some (bind_some (current_run h hleft))

/-- Looking at the item behind the one at the cursor. -/
theorem peek_one_run (h : s.Ready) {i j : Item} {rest : List Item}
    (hleft : s.left = i :: j :: rest) : peek 1 s = (some j, s) := by
  obtain ⟨c, hc, -⟩ := h.inside
  have hlen : s.stream.items.length - c = rest.length + 2 := by
    have := congrArg List.length hleft
    rwa [Parsing.left, hc, Int.toNat_natCast, List.length_drop] at this
  have hget : s.stream.items[c + 1]? = some j := by
    have := congrArg (fun l => l[1]?) hleft
    rwa [Parsing.left, hc, Int.toNat_natCast, List.getElem?_drop] at this
  have hcast : ((c : Int) + 1).toNat = c + 1 := by omega
  have hmin : min (c + 1) (s.stream.items.length - 1) = c + 1 := by omega
  simp [peek, Stream.peek?, hc, hcast, hmin, hget]

/-- At the last item there is nothing behind it to look at. -/
theorem peek_one_last (h : s.Ready) {i : Item} (hleft : s.left = [i]) : peek 1 s = (some i, s) := by
  obtain ⟨c, hc, hlt⟩ := h.inside
  have hlen : s.stream.items.length - c = 1 := by
    have := congrArg List.length hleft
    rwa [Parsing.left, hc, Int.toNat_natCast, List.length_drop] at this
  have hget : s.stream.items[c]? = some i := by
    have := congrArg (fun l => l[0]?) hleft
    rwa [Parsing.left, hc, Int.toNat_natCast, List.getElem?_drop] at this
  have hcast : ((c : Int) + 1).toNat = c + 1 := by omega
  have hmin : min (c + 1) (s.stream.items.length - 1) = c := by omega
  simp [peek, Stream.peek?, hc, hcast, hmin, hget]

/-- Moving past an item that is not the last. -/
theorem advance_run (h : s.Ready) {i : Item} {rest : List Item} (hleft : s.left = i :: rest)
    (hrest : rest ≠ []) : ∃ s', advance s = (some (), s') ∧ s.Goes s' ∧ s'.left = rest := by
  obtain ⟨c, hc, hlt⟩ := h.inside
  have hdrop : s.stream.items.drop c = i :: rest := by
    rwa [Parsing.left, hc, Int.toNat_natCast] at hleft
  have hlen : s.stream.items.length - c = rest.length + 1 := by
    rw [← List.length_drop, hdrop, List.length_cons]
  have hpos : 0 < rest.length := List.length_pos_iff.2 hrest
  have hnext : c + 1 < s.stream.items.length := by omega
  have hrun : s.stream.next? = some (s.stream.items[c],
      { s.stream with cursor := (c + 1 : Nat), far := max s.stream.far (c + 1) }) := by
    simp only [Stream.next?, hc, List.getElem?_eq_getElem hlt, Option.map_some, if_pos hnext]
  have hne : ((c + 1 : Nat) : Int) ≠ s.stream.cursor := by
    rw [hc]
    omega
  let s' : Parsing := { s with
    stream := { s.stream with cursor := (c + 1 : Nat), far := max s.stream.far (c + 1) }
    moves := (c + 1) :: s.moves }
  refine ⟨s', ?_, ⟨⟨⟨c + 1, rfl, hnext⟩, h.closed⟩, rfl, rfl, [c + 1], rfl, ?_, ?_, ?_⟩, ?_⟩
  · simp only [advance, hrun, if_neg hne]
    rfl
  · exact Nat.max_comm _ _
  · exact List.forall_mem_singleton.2 hnext
  · exact .inr (List.mem_singleton.2 rfl)
  · change s.stream.items.drop (c + 1) = rest
    rw [← List.drop_drop, hdrop]
    rfl

/-- At the last item there is no moving on. -/
theorem advance_last (h : s.Ready) {i : Item} (hleft : s.left = [i]) :
    advance s = (some (), s) := by
  obtain ⟨c, hc, hlt⟩ := h.inside
  have hlen : s.stream.items.length - c = 1 := by
    have := congrArg List.length hleft
    rwa [Parsing.left, hc, Int.toNat_natCast, List.length_drop] at this
  have hnext : ¬ c + 1 < s.stream.items.length := by omega
  have hrun : s.stream.next? = some (s.stream.items[c], s.stream) := by
    simp only [Stream.next?, hc, List.getElem?_eq_getElem hlt, Option.map_some, if_neg hnext]
  simp only [advance, hrun, if_true]

/-! ## Parts and productions -/

/-- A parser may fail anywhere; if it does not, it has read some items, of which and of the node
something is known. -/
def PartAt (s : Parsing) (p : Parser α) (Q : α → List Item → Prop) : Prop :=
  ∀ r s', p s = (r, s') → s.Goes s' ∧
    ∀ x, r = some x → ∃ w, s.left = w ++ s'.left ∧ Q x w

/-- Besides, it leaves the cursor where it was if it fails. -/
def ProductionAt (s : Parsing) (p : Parser α) (Q : α → List Item → Prop) : Prop :=
  PartAt s p Q ∧ ∀ s', p s = (none, s') → s'.stream.cursor = s.stream.cursor

/-- A part wherever the cursor is. -/
def Part (p : Parser α) (Q : α → List Item → Prop) : Prop := ∀ s, s.Ready → PartAt s p Q

/-- A production wherever the cursor is. -/
def Production (p : Parser α) (Q : α → List Item → Prop) : Prop :=
  ∀ s, s.Ready → ProductionAt s p Q

variable {f : α → Parser β} {P P' : α → List Item → Prop} {Q : β → List Item → Prop}

theorem Production.part (h : Production p P) : Part p P := fun s hs => (h s hs).1

theorem PartAt.weaken (h : PartAt s p P) (hPP' : ∀ x w, P x w → P' x w) : PartAt s p P' := by
  intro r s' hrun
  obtain ⟨hgoes, hyield⟩ := h r s' hrun
  refine ⟨hgoes, fun x hx => ?_⟩
  obtain ⟨w, hw, hP⟩ := hyield x hx
  exact ⟨w, hw, hPP' x w hP⟩

theorem Part.weaken (h : Part p P) (hPP' : ∀ x w, P x w → P' x w) : Part p P' :=
  fun s hs => (h s hs).weaken hPP'

theorem ProductionAt.weaken (h : ProductionAt s p P) (hPP' : ∀ x w, P x w → P' x w) :
    ProductionAt s p P' :=
  ⟨h.1.weaken hPP', h.2⟩

theorem Production.weaken (h : Production p P) (hPP' : ∀ x w, P x w → P' x w) : Production p P' :=
  fun s hs => (h s hs).weaken hPP'

theorem PartAt.pure {x : α} (hs : s.Ready) (h : P x []) : PartAt s (pure x) P := by
  rintro r s' ⟨⟩
  refine ⟨.refl hs, ?_⟩
  rintro _ ⟨⟩
  exact ⟨[], rfl, h⟩

theorem Part.pure {x : α} (h : P x []) : Part (pure x) P := fun _ hs => .pure hs h

theorem ProductionAt.fail (hs : s.Ready) : ProductionAt s fail P := by
  refine ⟨?_, ?_⟩
  · rintro r s' ⟨⟩
    exact ⟨.refl hs, nofun⟩
  · rintro s' ⟨⟩
    rfl

theorem Part.fail : Part fail P := fun _ hs => (ProductionAt.fail hs).1

/-- One part behind the other. -/
theorem PartAt.bind (h : PartAt s p P)
    (hf : ∀ x u s', s'.Ready → P x u → PartAt s' (f x) fun y v => Q y (u ++ v)) :
    PartAt s (p >>= f) Q := by
  intro r s'' hrun
  rcases hp : p s with ⟨_ | x, s'⟩
  · obtain ⟨rfl, rfl⟩ := Prod.mk.inj ((bind_none hp).symm.trans hrun)
    exact ⟨(h _ _ hp).1, nofun⟩
  · obtain ⟨hgoes, hyield⟩ := h _ _ hp
    obtain ⟨u, hu, hPu⟩ := hyield x rfl
    rw [bind_some hp] at hrun
    obtain ⟨hgoes', hyield'⟩ := hf x u s' hgoes.ready hPu r s'' hrun
    refine ⟨hgoes.trans hgoes', fun y hy => ?_⟩
    obtain ⟨v, hv, hQ⟩ := hyield' y hy
    exact ⟨u ++ v, by rw [hu, hv, List.append_assoc], hQ⟩

theorem Part.bind (h : Part p P)
    (hf : ∀ x u, P x u → Part (f x) fun y v => Q y (u ++ v)) : Part (p >>= f) Q :=
  fun s hs => (h s hs).bind fun x u s' hs' hx => hf x u hx s' hs'

/-- A production and what is computed from its node. -/
theorem ProductionAt.map {g : α → β} (h : ProductionAt s p P)
    (hg : ∀ x w, P x w → Q (g x) w) : ProductionAt s (p >>= fun x => Pure.pure (g x)) Q := by
  refine ⟨h.1.bind fun x u s' hs' hx => .pure hs' ?_, fun s' hrun => ?_⟩
  · rw [List.append_nil]
    exact hg x u hx
  · rcases hp : p s with ⟨_ | x, s''⟩
    · obtain ⟨-, rfl⟩ := Prod.mk.inj ((bind_none hp).symm.trans hrun)
      exact h.2 _ hp
    · rw [bind_some hp] at hrun
      cases hrun

/-- What is computed from a node is read as the node is. -/
theorem Production.mapped {g : α → β} (h : Production p P) :
    Production (p >>= fun x => Pure.pure (g x)) fun _ _ => True :=
  fun s hs => (h s hs).map fun _ _ _ => trivial

/-- One production, or else another. -/
theorem ProductionAt.orElse {q : Parser α} (h : ProductionAt s p P)
    (hq : ∀ s', s'.Ready → s'.left = s.left → ProductionAt s' q P) :
    ProductionAt s (p <|> q) P := by
  have hrun : ∀ r s'', (p <|> q) s = (r, s'') → (p s = (r, s'') ∧ r ≠ none) ∨
      ∃ s', p s = (none, s') ∧ q s' = (r, s'') := by
    intro r s'' hrun
    rw [orElse_run] at hrun
    rcases hp : p s with ⟨_ | x, s'⟩
    · rw [hp] at hrun
      exact .inr ⟨s', rfl, hrun⟩
    · rw [hp] at hrun
      obtain ⟨rfl, rfl⟩ := Prod.mk.inj hrun
      exact .inl ⟨rfl, nofun⟩
  constructor
  · intro r s'' h'
    rcases hrun r s'' h' with ⟨hp, -⟩ | ⟨s', hp, hq'⟩
    · exact h.1 r s'' hp
    · have hgoes := (h.1 _ _ hp).1
      have hleft := hgoes.left_eq (h.2 _ hp)
      obtain ⟨hgoes', hyield⟩ := (hq s' hgoes.ready hleft).1 r s'' hq'
      refine ⟨hgoes.trans hgoes', fun x hx => ?_⟩
      rw [← hleft]
      exact hyield x hx
  · intro s'' h'
    rcases hrun none s'' h' with ⟨-, hne⟩ | ⟨s', hp, hq'⟩
    · exact absurd rfl hne
    · have hgoes := (h.1 _ _ hp).1
      exact ((hq s' hgoes.ready (hgoes.left_eq (h.2 _ hp))).2 _ hq').trans (h.2 _ hp)

theorem Production.orElse {q : Parser α} (h : Production p P) (hq : Production q P) :
    Production (p <|> q) P :=
  fun s hs => (h s hs).orElse fun s' hs' _ => hq s' hs'

/-- A part that resets the cursor when it fails. -/
theorem ProductionAt.orReset (hs : s.Ready) (h : PartAt s p P) :
    ProductionAt s (orReset s.stream.cursor p) P := by
  constructor
  · intro r s'' hrun
    rw [orReset_run] at hrun
    rcases hp : p s with ⟨_ | x, s'⟩
    · rw [hp] at hrun
      obtain ⟨rfl, rfl⟩ := Prod.mk.inj hrun
      exact ⟨(h _ _ hp).1.reset hs, nofun⟩
    · rw [hp] at hrun
      obtain ⟨rfl, rfl⟩ := Prod.mk.inj hrun
      exact h _ _ hp
  · intro s'' hrun
    rw [orReset_run] at hrun
    rcases hp : p s with ⟨_ | x, s'⟩
    · rw [hp] at hrun
      obtain ⟨-, rfl⟩ := Prod.mk.inj hrun
      rfl
    · rw [hp] at hrun
      cases hrun

/-- A production, and a part behind it that resets the cursor to the start when it fails. -/
theorem ProductionAt.andThen (hs : s.Ready) (h : ProductionAt s p P)
    (hf : ∀ x u, P x u → Part (f x) fun y v => Q y (u ++ v)) :
    ProductionAt s (p >>= fun x => Parser.orReset s.stream.cursor (f x)) Q := by
  have hpart : PartAt s (p >>= f) Q := h.1.bind fun x u s' hs' hx => hf x u hx s' hs'
  have hrun : ∀ r s'', (p >>= fun x => Parser.orReset s.stream.cursor (f x)) s = (r, s'') →
      Parser.orReset s.stream.cursor (p >>= f) s = (r, s'') := by
    intro r s'' hrun
    rw [orReset_run]
    rcases hp : p s with ⟨_ | x, s'⟩
    · obtain ⟨rfl, rfl⟩ := Prod.mk.inj ((bind_none hp).symm.trans hrun)
      rw [bind_none hp]
      have hcursor := h.2 _ hp
      simp only [Stream.reset, ← hcursor]
    · rw [bind_some hp, orReset_run] at hrun
      rwa [bind_some hp]
  obtain ⟨hyield, hcursor⟩ := ProductionAt.orReset hs hpart
  exact ⟨fun r s'' h' => hyield r s'' (hrun r s'' h'), fun s'' h' => hcursor s'' (hrun none s'' h')⟩

/-! ## Productions that keep a mark -/

theorem ProductionAt.mark {f : Int → Parser β} (h : ProductionAt s (f s.stream.cursor) Q) :
    ProductionAt s (mark >>= f) Q := h

/-- A part that starts at the mark to which it is reset. -/
theorem Production.whole (h : Part p P) : Production (do let m ← mark; orReset m p) P :=
  fun s hs => .mark (.orReset hs (h s hs))

/-- A part behind a production, which is reset to the mark in front of that. -/
theorem Production.andThen (h : Production p P)
    (hf : ∀ x u, P x u → Part (f x) fun y v => Q y (u ++ v)) :
    Production (do let m ← mark; let x ← p; orReset m (f x)) Q :=
  fun s hs => .mark ((h s hs).andThen hs hf)

/-! ## Reading items -/

theorem PartAt.congr {q : Parser α} (h : p s = q s) (hq : PartAt s q P) : PartAt s p P :=
  fun r s' hrun => hq r s' (h ▸ hrun)

theorem ProductionAt.congr {q : Parser α} (h : p s = q s) (hq : ProductionAt s q P) :
    ProductionAt s p P :=
  ⟨hq.1.congr h, fun s' hrun => hq.2 s' (h ▸ hrun)⟩

/-- A parser that is known not to fail. -/
theorem ProductionAt.of_run {x : α} {w : List Item} (h : p s = (some x, s')) (hgoes : s.Goes s')
    (hw : s.left = w ++ s'.left) (hP : P x w) : ProductionAt s p P := by
  constructor
  · intro r t hrun
    obtain ⟨rfl, rfl⟩ := Prod.mk.inj (h.symm.trans hrun)
    exact ⟨hgoes, fun y hy => ⟨w, hw, Option.some.inj hy ▸ hP⟩⟩
  · intro t hrun
    cases h.symm.trans hrun

/-- Looking at the item at the cursor. -/
theorem PartAt.current {f : Item → Parser β} (hs : s.Ready)
    (h : ∀ i rest, s.left = i :: rest → PartAt s (f i) Q) : PartAt s (current >>= f) Q := by
  obtain ⟨i, rest, hleft, -⟩ := hs.exists_cons
  exact (h i rest hleft).congr (current_bind hs hleft)

theorem ProductionAt.current {f : Item → Parser β} (hs : s.Ready)
    (h : ∀ i rest, s.left = i :: rest → ProductionAt s (f i) Q) :
    ProductionAt s (current >>= f) Q := by
  obtain ⟨i, rest, hleft, -⟩ := hs.exists_cons
  exact (h i rest hleft).congr (current_bind hs hleft)

/-- Looking at the token at the cursor. -/
theorem PartAt.token {f : Token → Parser β} (hs : s.Ready)
    (h : ∀ i rest, s.left = i :: rest → PartAt s (f i.token) Q) : PartAt s (token >>= f) Q := by
  obtain ⟨i, rest, hleft, -⟩ := hs.exists_cons
  exact (h i rest hleft).congr (token_bind hs hleft)

theorem ProductionAt.token {f : Token → Parser β} (hs : s.Ready)
    (h : ∀ i rest, s.left = i :: rest → ProductionAt s (f i.token) Q) :
    ProductionAt s (token >>= f) Q := by
  obtain ⟨i, rest, hleft, -⟩ := hs.exists_cons
  exact (h i rest hleft).congr (token_bind hs hleft)

/-- What is read starts with the item at the cursor. -/
theorem PartAt.start {i : Item} {rest : List Item} (hleft : s.left = i :: rest)
    (h : PartAt s p fun x w => (∀ j ∈ w.head?, j.pos = i.pos) → P x w) : PartAt s p P := by
  intro r s' hrun
  obtain ⟨hgoes, hyield⟩ := h r s' hrun
  refine ⟨hgoes, fun x hx => ?_⟩
  obtain ⟨w, hw, hP⟩ := hyield x hx
  refine ⟨w, hw, hP fun j hj => ?_⟩
  obtain ⟨w, rfl⟩ := List.head?_eq_some_iff.1 hj
  rw [hleft, List.cons_append] at hw
  exact congrArg Item.pos (List.cons.inj hw).1.symm

theorem ProductionAt.start {i : Item} {rest : List Item} (hleft : s.left = i :: rest)
    (h : ProductionAt s p fun x w => (∀ j ∈ w.head?, j.pos = i.pos) → P x w) :
    ProductionAt s p P := ⟨h.1.start hleft, h.2⟩

/-- What is read starts at the position that has been looked at. -/
theorem PartAt.pos {f : Pos → Parser β} (hs : s.Ready)
    (h : ∀ pos, PartAt s (f pos) fun x w => (∀ j ∈ w.head?, j.pos = pos) → Q x w) :
    PartAt s (Parser.pos >>= f) Q := by
  obtain ⟨i, rest, hleft, -⟩ := hs.exists_cons
  exact ((h i.pos).start hleft).congr (pos_bind hs hleft)

theorem ProductionAt.pos {f : Pos → Parser β} (hs : s.Ready)
    (h : ∀ pos, ProductionAt s (f pos) fun x w => (∀ j ∈ w.head?, j.pos = pos) → Q x w) :
    ProductionAt s (Parser.pos >>= f) Q := by
  obtain ⟨i, rest, hleft, -⟩ := hs.exists_cons
  exact ((h i.pos).start hleft).congr (pos_bind hs hleft)

section

variable {i : Item} {rest : List Item} (hs : s.Ready) (hleft : s.left = i :: rest)
include hs hleft

/-- Moving past an item that is not the last. -/
theorem PartAt.step {f : Unit → Parser β} (hrest : rest ≠ [])
    (h : Part (f ()) fun y v => Q y ([i] ++ v)) : PartAt s (advance >>= f) Q := by
  obtain ⟨s', hrun, hgoes, hleft'⟩ := advance_run hs hleft hrest
  have hstep : PartAt s Parser.advance fun _ w => w = [i] := by
    intro r t ht
    obtain ⟨rfl, rfl⟩ := Prod.mk.inj (hrun.symm.trans ht)
    exact ⟨hgoes, fun _ _ => ⟨[i], by rw [hleft, hleft']; rfl, rfl⟩⟩
  refine hstep.bind fun _ u t ht hu => ?_
  obtain rfl := hu
  exact h t ht

variable (hne : i.token ≠ .eof)
include hne

theorem exists_advance : ∃ s', advance s = (some (), s') ∧ s.Goes s' ∧ s'.left = rest :=
  advance_run hs hleft (hs.rest_ne_nil hleft hne)

theorem PartAt.advance {f : Unit → Parser β} (h : Part (f ()) fun y v => Q y ([i] ++ v)) :
    PartAt s (advance >>= f) Q := .step hs hleft (hs.rest_ne_nil hleft hne) h

/-- Moving past an item is all there is to do. -/
theorem ProductionAt.advance {x : β} (h : Q x [i]) :
    ProductionAt s (advance >>= fun _ => Pure.pure x) Q := by
  obtain ⟨s', hrun, hgoes, hleft'⟩ := exists_advance hs hleft hne
  exact .of_run (bind_some hrun) hgoes (by rw [hleft, hleft']; rfl) h

end

/-- Moving on, which the last item does not allow. -/
theorem part_advance : Part advance fun _ _ => True := by
  intro s hs
  obtain ⟨i, rest, hleft, -⟩ := hs.exists_cons
  by_cases hrest : rest = []
  · subst hrest
    exact (ProductionAt.of_run (advance_last hs hleft) (.refl hs) (w := []) rfl trivial).1
  · obtain ⟨s', hrun, hgoes, hleft'⟩ := advance_run hs hleft hrest
    exact (ProductionAt.of_run hrun hgoes (w := [i]) (by rw [hleft, hleft']; rfl) trivial).1

theorem accept_bind_pos {t : Token} {f : Bool → Parser β} {i : Item} {rest : List Item}
    (hs : s.Ready) (hleft : s.left = i :: rest) (hi : i.token = t) :
    (accept t >>= f) s = (advance >>= fun _ => f true) s := by
  have haccept : accept t s = (advance >>= fun _ => Pure.pure true) s := by
    rw [accept, token_bind hs hleft, if_pos hi]
  rw [bind_run, haccept, bind_run, bind_run]
  rcases advance s with ⟨_ | _, s'⟩
  · rfl
  · rfl

theorem accept_bind_neg {t : Token} {f : Bool → Parser β} {i : Item} {rest : List Item}
    (hs : s.Ready) (hleft : s.left = i :: rest) (hi : i.token ≠ t) :
    (accept t >>= f) s = f false s := by
  have haccept : accept t s = (some false, s) := by
    rw [accept, token_bind hs hleft, if_neg hi]
    rfl
  exact bind_some haccept

/-- A token that may be there. -/
theorem Part.accepted {t : Token} {f : Bool → Parser β} (ht : t ≠ .eof)
    (hyes : ∀ i, i.token = t → Part (f true) fun y v => Q y ([i] ++ v)) (hno : Part (f false) Q) :
    Part (accept t >>= f) Q := by
  intro s hs
  obtain ⟨i, rest, hleft, -⟩ := hs.exists_cons
  by_cases hi : i.token = t
  · have h : PartAt s (advance >>= fun _ => f true) Q :=
      .advance hs hleft (hi ▸ ht) (hyes i hi)
    exact h.congr (accept_bind_pos hs hleft hi)
  · exact (hno s hs).congr (accept_bind_neg hs hleft hi)

theorem Part.accept {t : Token} {yes no : Parser β} (ht : t ≠ .eof)
    (hyes : ∀ i, i.token = t → Part yes fun y v => Q y ([i] ++ v)) (hno : Part no Q) :
    Part (accept t >>= fun b => if b = true then yes else no) Q :=
  .accepted ht hyes hno

/-- A token that is all there is to read, and something else if it is not there. -/
theorem ProductionAt.accept {t : Token} {x : β} {no : Parser β} (hs : s.Ready) (ht : t ≠ .eof)
    (hyes : ∀ i, i.token = t → Q x [i]) (hno : ProductionAt s no Q) :
    ProductionAt s (accept t >>= fun b => if b = true then Pure.pure x else no) Q := by
  obtain ⟨i, rest, hleft, -⟩ := hs.exists_cons
  by_cases hi : i.token = t
  · exact (ProductionAt.advance hs hleft (hi ▸ ht) (hyes i hi)).congr
      (accept_bind_pos hs hleft hi)
  · exact hno.congr (accept_bind_neg hs hleft hi)

/-- A token that has to be there. -/
theorem Production.expect {t : Token} (ht : t ≠ .eof) :
    Production (expect t) fun _ w => ∃ i, w = [i] ∧ i.token = t :=
  fun _ hs => .accept hs ht (fun i hi => ⟨i, rfl, hi⟩) (.fail hs)

theorem Part.expect {t : Token} {f : Unit → Parser β} (ht : t ≠ .eof)
    (h : ∀ i, i.token = t → Part (f ()) fun y v => Q y ([i] ++ v)) : Part (expect t >>= f) Q := by
  refine (Production.expect ht).part.bind fun _ u hu => ?_
  obtain ⟨i, rfl, hi⟩ := hu
  exact h i hi

theorem Production.name : Production name fun n w =>
    ∃ i, w = [i] ∧ i.token = .name ∧ n = ⟨i.text, i.pos⟩ := by
  refine fun s hs => .current hs fun i rest hleft => ?_
  split
  next h => exact .advance hs hleft (h ▸ nofun) ⟨i, rfl, h, rfl⟩
  next => exact .fail hs

theorem Production.typeName : Production typeName fun t w =>
    ∃ i, w = [i] ∧ i.token = .typeName t := by
  refine fun s hs => .token hs fun i rest hleft => ?_
  split
  next h => exact .advance hs hleft (h ▸ nofun) ⟨i, rfl, h⟩
  next => exact .fail hs

end Parser

end Shader
