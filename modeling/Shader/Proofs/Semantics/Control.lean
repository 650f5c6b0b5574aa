import Shader.Lowering.Stmt
import Shader.Proofs.Semantics.Simulation

/-!
# Control structures keep their meaning

Expressions always come to an end, statements need not. A part of the meaning that gives up a loop
after `n` rounds is followed by the machine for at least `n` steps: `Func.Tracks` says this, and
that the machine comes to where the meaning ends if it does. So the machine returns exactly if the
meaning yields something for some number of rounds.

Control structures are composed of parts that start at the head of a block, or lead to one. A loop
goes back to its head at least once in each round that does not end it, which is a step.
-/

namespace Shader.Ir.Func

open Meaning

/-- The machine comes to where a part of the meaning ends; if that gives up, the machine takes at
least `n` steps. -/
def Tracks {β : Type} (f : Func) (n : Nat) (c : Config) (Q : Store → β → Config → Prop) :
    Option (Store × β) → Prop
  | some (σ, r) => f.Reaches 0 c (Q σ r)
  | none => f.Reaches n c fun _ => True

section

variable {β γ : Type} {f : Func} {n : Nat} {c : Config} {P Q : Store → β → Config → Prop}
  {m : Option (Store × β)}

theorem Reaches.tracks {j : Nat} {R : Config → Prop} (h : f.Reaches j c R)
    (hR : ∀ c', R c' → f.Tracks n c' Q m) : f.Tracks n c Q m := by
  rcases m with _ | ⟨σ, r⟩
  · exact (h.bind hR).weaken (Nat.le_add_left _ _) fun _ h => h
  · exact (h.bind hR).weaken (Nat.zero_le _) fun _ h => h

namespace Tracks

theorem bind {R : Store → γ → Config → Prop} {k : Store × β → Option (Store × γ)}
    (h : f.Tracks n c P m) (hk : ∀ σ r c', P σ r c' → f.Tracks n c' R (k (σ, r))) :
    f.Tracks n c R (m.bind k) := by
  rcases m with _ | ⟨σ, r⟩
  · exact h
  · exact Reaches.tracks h (hk σ r)

/-- The machine goes on from where the meaning ends. -/
theorem goesOn (h : f.Tracks n c P m) (hPQ : ∀ σ r c', P σ r c' → f.Reaches 0 c' (Q σ r)) :
    f.Tracks n c Q m := by
  rcases m with _ | ⟨σ, r⟩
  · exact h
  · exact Reaches.bind h (hPQ σ r)

theorem weaken (h : f.Tracks n c P m) (hPQ : ∀ σ r c', P σ r c' → Q σ r c') : f.Tracks n c Q m :=
  h.goesOn fun σ r c' hP => .here (hPQ σ r c' hP)

theorem map {R : Store → γ → Config → Prop} {k : Store × β → Store × γ} (h : f.Tracks n c P m)
    (hk : ∀ σ r c', P σ r c' → R (k (σ, r)).1 (k (σ, r)).2 c') : f.Tracks n c R (m.map k) := by
  rcases m with _ | ⟨σ, r⟩
  · exact h
  · exact Reaches.weaken h (Nat.le_refl _) (hk σ r)

end Tracks

/-- The rounds of a loop: from the head of the loop each round comes to the end of the loop, or is
about to go back to the head. -/
theorem tracks_rounds {Q : Store → Ending → Config → Prop} {H : Store → Config → Prop}
    {round : Store → Option (Store × Option Ending)}
    (h : ∀ σ c, H σ c → f.Tracks n c
      (fun σ e c' => e.elim (f.Reaches 1 c' (H σ)) fun e => Q σ e c') (round σ)) :
    ∀ k ≤ n, ∀ σ c, f.Reaches 1 c (H σ) → f.Tracks k c Q (rounds round k σ)
  | 0, _, σ, c, _ => .here trivial
  | k + 1, hk, σ, c, hhead => by
    have hround := h σ
    rw [rounds]
    generalize round σ = result at hround
    -- a round starts with a step
    rcases result with _ | ⟨σ', _ | e⟩
    · exact (hhead.bind hround).weaken (by omega) fun _ h => h
    · have hrest : ∀ c', H σ c' → f.Tracks k c' Q (rounds round k σ') := fun c' hc' =>
        Reaches.tracks (hround c' hc') fun c'' hc'' =>
          tracks_rounds h k (Nat.le_of_succ_le hk) σ' c'' hc''
      dsimp only
      generalize rounds round k σ' = result at hrest
      rcases result with _ | ⟨σ'', e⟩
      · exact (hhead.bind hrest).weaken (by omega) fun _ h => h
      · exact (hhead.bind hrest).weaken (Nat.zero_le _) fun _ h => h
    · exact (hhead.bind hround).weaken (Nat.zero_le _) fun _ h => h

end

end Shader.Ir.Func

namespace Shader.Lowering

open Ir Meaning

/-! ## Ways to blocks -/

/-- The machine is about to come to the start of a block. -/
def Departs (f : Func) (frames : List (Frame DataType Value)) (k : Label) (σ : Store)
    (c : Config) : Prop :=
  f.Reaches 1 c (Arrives f k frames σ)

/-- Where the machine is when a statement has ended: as told if the next statement follows, and on
its way if the loop around is left or goes on. -/
def Lands (f : Func) (loop : Option Loop) (D : Store → Config → Prop)
    (A : Label → Store → Config → Prop) (σ : Store) (e : Ending) (c : Config) : Prop :=
  match e with
  | .done => D σ c
  | .broken => ∃ lp, loop = some lp ∧ A lp.leave σ c
  | .continued => ∃ lp, loop = some lp ∧ A lp.next σ c
  | .returned w => f.step c = some (.inr (some (.word w)))

section

variable {f : Func} {n : Nat} {c : Config} {loop : Option Loop}
  {D D' : Store → Config → Prop} {A A' : Label → Store → Config → Prop}
  {frames : List (Frame DataType Value)} {σ : Store}

/-- The machine goes on where the next statement follows. -/
theorem tracks_lands {m : Option (Store × Ending)} (h : f.Tracks n c (Lands f loop D A) m)
    (hD : ∀ σ c', D σ c' → f.Reaches 0 c' (D' σ)) (hA : ∀ k σ c', A k σ c' → A' k σ c') :
    f.Tracks n c (Lands f loop D' A') m := by
  refine h.goesOn fun σ e c' he => ?_
  cases e with
  | done => exact hD σ c' he
  | broken =>
    obtain ⟨lp, hlp, hgo⟩ := he
    exact .here ⟨lp, hlp, hA _ σ c' hgo⟩
  | continued =>
    obtain ⟨lp, hlp, hgo⟩ := he
    exact .here ⟨lp, hlp, hA _ σ c' hgo⟩
  | returned w => exact .here he

/-! ## Loops -/

/-- Where a round of a loop ends: on the way back to the head, or behind the loop. -/
def RoundEnds (f : Func) (loop : Option Loop) (A : Label → Store → Config → Prop)
    (frames : List (Frame DataType Value)) (head leave : Label) (σ : Store) (e : Option Ending)
    (c : Config) : Prop :=
  e.elim (Departs f frames head σ c) fun e => Lands f loop (Departs f frames leave) A σ e c

variable {head round leave next : Label} {body : Store → Option (Store × Ending)}

/-- What comes behind the body of a loop. -/
theorem tracks_after {m : Option (Store × Ending)} {k : Store → Option (Store × Option Ending)}
    (h : f.Tracks n c (Lands f (some { leave, next }) (Departs f frames next) (Departs f frames)) m)
    (hnext : ∀ σ c', Departs f frames next σ c' →
      f.Tracks n c' (RoundEnds f loop A frames head leave) (k σ)) :
    f.Tracks n c (RoundEnds f loop A frames head leave) (m.bind (after k)) := by
  refine h.bind fun σ e c' he => ?_
  cases e with
  | done => exact hnext σ c' he
  | broken =>
    obtain ⟨lp, hlp, hgo⟩ := he
    obtain rfl := Option.some.inj hlp
    exact .here hgo
  | continued =>
    obtain ⟨lp, hlp, hgo⟩ := he
    obtain rfl := Option.some.inj hlp
    exact hnext σ c' hgo
  | returned w => exact .here he

/-- A loop that tests first. -/
theorem tracks_testedLoop {cond : Option Expr} {step : Store → Option Store}
    (htest : ∀ σ c, Arrives f head frames σ c → f.Tracks n c
      (fun σ go => Departs f frames (if go then round else leave) σ) (goesOn cond σ))
    (hbody : ∀ σ c, Arrives f round frames σ c → f.Tracks n c
      (Lands f (some { leave, next }) (Departs f frames next) (Departs f frames)) (body σ))
    (hstep : ∀ σ c, Departs f frames next σ c → f.Tracks n c
      (fun σ (_ : Unit) => Departs f frames head σ) ((step σ).map fun σ => (σ, ())))
    (h : Departs f frames head σ c) :
    f.Tracks n c (Lands f loop (Departs f frames leave) A)
      (rounds (testedRound cond body step) n σ) := by
  refine Func.tracks_rounds (H := Arrives f head frames) (fun σ c hc => ?_) n (Nat.le_refl n) σ c h
  change f.Tracks n c (RoundEnds f loop A frames head leave) (Option.bind _ _)
  refine (htest σ c hc).bind fun σ go c hgo => ?_
  cases go with
  | true =>
    refine Func.Reaches.tracks hgo fun c hc => tracks_after (hbody σ c hc) fun σ c hc => ?_
    have hmap := (hstep σ c hc).map (k := fun p => (p.1, none))
      (R := RoundEnds f loop A frames head leave) fun _ _ _ h => h
    rw [Option.map_map] at hmap
    exact hmap
  | false => exact .here hgo

/-- A loop that tests last. -/
theorem tracks_testingLoop {cond : Expr}
    (hbody : ∀ σ c, Arrives f round frames σ c → f.Tracks n c
      (Lands f (some { leave, next }) (Departs f frames next) (Departs f frames)) (body σ))
    (htest : ∀ σ c, Departs f frames next σ c → f.Tracks n c
      (fun σ go => Departs f frames (if go then round else leave) σ) (test cond σ))
    (h : Departs f frames round σ c) :
    f.Tracks n c (Lands f loop (Departs f frames leave) A)
      (rounds (testingRound cond body) n σ) := by
  refine Func.tracks_rounds (H := Arrives f round frames) (fun σ c hc => ?_) n (Nat.le_refl n) σ c h
  refine tracks_after (hbody σ c hc) fun σ c hc => (htest σ c hc).map fun σ go c' hgo => ?_
  cases go with
  | true => exact hgo
  | false => exact hgo

end

/-! ## Code that follows statements -/

section

variable {f : Func} {n : Nat} {c : Config} {k : Label} {frames : List (Frame DataType Value)}
  {σ : Store} {b b' y : Body} {loop : Option Loop}

theorem Stored.tail {memory : List (Option Scalar)} (h : Stored f memory frames σ) :
    Stored f memory frames.tail σ.tail := by
  cases h with
  | nil => exact .nil
  | cons _ hrest => exact hrest

/-- The variables of the innermost block do not matter any more. -/
theorem Departs.tail (h : Departs f frames k σ c) : Departs f frames.tail k σ.tail c :=
  h.weaken (Nat.le_refl _) fun _ hc => ⟨hc.head, hc.housed, hc.stored.tail⟩

/-- The machine comes to the start of a block that is being written. -/
theorem Departs.matches (h : Departs f b.scopes.inner k σ c) (hstarts : b'.draft.Starts k)
    (hscopes : b'.scopes = b.scopes) : f.Reaches 0 c (b'.Matches f σ) :=
  h.weaken (Nat.zero_le _) fun _ hc => hc.matches hstarts (by rw [hscopes])

/-- Code that always ends. -/
theorem Body.Simulates.tracks {β : Type} {P : Config → Prop} {m : Store → Option (Store × β)}
    {Q : β → Config → Prop} (h : b.Simulates b' P m Q) (hf : f.Executable)
    (hle : b'.draft.func.Le f) (hc : b.Matches f σ c) (hP : P c) :
    f.Tracks n c (fun σ r c' => b'.Matches f σ c' ∧ Q r c') (m σ) := by
  obtain ⟨σ', r, hr, hreach⟩ := h f σ c hf hle hc hP
  rw [hr]
  exact hreach.weaken (Nat.le_refl _) fun _ hc' => hc'.2

/-- From every configuration that matches the first state, the machine tracks a statement to one
that matches the second, or leaves the block on the way to the loop around. -/
def Body.Follows (f : Func) (n : Nat) (b b' : Body) (loop : Option Loop)
    (m : Store → Option (Store × Ending)) : Prop :=
  ∀ σ c, b.Matches f σ c → f.Tracks n c (Lands f loop (b'.Matches f) fun k σ =>
    Departs f b.scopes.inner.tail k σ.tail) (m σ)

/-- A statement in a block of its own. -/
theorem Body.Follows.inBlock {m : Store → Option (Store × Ending)}
    (h : Body.Follows f n { b with scopes := b.scopes.enter } y loop m)
    (htail : y.scopes.inner.tail = b.scopes.inner) (hc : b.Matches f σ c) :
    f.Tracks n c (Lands f loop (Body.Matches f { y with scopes := b.scopes })
      (Departs f b.scopes.inner)) (inBlock m σ) := by
  have hc' : Body.Matches f { b with scopes := b.scopes.enter } ([] :: σ) c :=
    ⟨hc.here, hc.housed, .cons .nil hc.stored⟩
  refine (h _ c hc').map fun σ' e c' he => ?_
  cases e with
  | done => exact ⟨he.here, he.housed, htail ▸ he.stored.tail⟩
  | _ => exact he

end

end Shader.Lowering
