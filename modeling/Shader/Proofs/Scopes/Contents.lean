import Shader.Scopes

/-!
# What is in scope

A property of declarations is kept by opening and closing blocks, and a declaration that has it may
be added.
-/

namespace Shader.Scopes

variable {τ α : Type} {P Q : Symbol τ α → Prop} {s s' : Scopes τ α} {sym : Symbol τ α}

/-- All declarations in scope have a property. -/
def All (P : Symbol τ α → Prop) (s : Scopes τ α) : Prop :=
  ∀ frame ∈ s.frames, ∀ sym ∈ frame, P sym

namespace All

theorem mono (h : s.All P) (hPQ : ∀ sym, P sym → Q sym) : s.All Q :=
  fun frame hframe sym hsym => hPQ sym (h frame hframe sym hsym)

theorem lookup? (h : s.All P) {name : String} (hsym : s.lookup? name = some sym) : P sym := by
  obtain ⟨f, hf, hfind⟩ := List.exists_of_findSome?_eq_some hsym
  exact h f hf sym (List.mem_of_find?_eq_some hfind)

theorem enter (h : s.All P) : s.enter.All P := List.forall_mem_cons.2 ⟨List.forall_mem_nil _, h⟩

theorem exit? (h : s.All P) (hexit : s.exit? = some s') : s'.All P := by
  rcases s with ⟨_ | ⟨f, inner⟩, root⟩
  · cases hexit
  · cases hexit
    exact (List.forall_mem_cons.1 h).2

theorem declare (h : s.All P) (hsym : P sym) (hdeclare : s.declare sym = .ok s') : s'.All P := by
  unfold Scopes.declare at hdeclare
  split at hdeclare
  · cases hdeclare
  · cases hdeclare
    rcases s with ⟨_ | ⟨f, inner⟩, root⟩
    all_goals
      obtain ⟨htop, hrest⟩ := List.forall_mem_cons.1 h
      refine List.forall_mem_cons.2 ⟨fun s hs => ?_, hrest⟩
      rcases List.mem_append.1 hs with hs | hs
      · exact htop s hs
      · exact List.mem_singleton.1 hs ▸ hsym

end All

/-- A name that has been declared refers to its declaration. -/
theorem lookup?_declare (hdeclare : s.declare sym = .ok s') : s'.lookup? sym.name = some sym := by
  unfold Scopes.declare at hdeclare
  split at hdeclare
  · cases hdeclare
  next hfind =>
    cases hdeclare
    have hlast : Frame.find? (s.top ++ [sym]) sym.name = some sym := by
      rw [Frame.find?, List.find?_append, ← Frame.find?, hfind]
      simp
    rcases s with ⟨_ | ⟨f, inner⟩, root⟩
    all_goals
      simp only [Scopes.lookup?, frames, setTop, top, List.nil_append, List.cons_append,
        List.findSome?_cons] at hlast ⊢
      rw [hlast]

end Shader.Scopes
