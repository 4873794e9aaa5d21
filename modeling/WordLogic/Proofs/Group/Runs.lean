import Mathlib.Data.List.Chain
import WordLogic.Group

/-!
# Runs of alternatives

`Clause.ofLiterals` cuts a row of literals into clauses. Each stands for literals with its
connective (`Clause.Proper`), and no two runs are neighbours.

* `isRun_of_mem_clauses`: so the clauses with alternatives are the longest runs of literals with the
  connective `or` (`Group.IsRun`).
* `ofLiterals_flatMap_literals`: and the cut is the only one of this kind.
-/

namespace WordLogic

/-- The literals are neighbours in the group, their connective is `or`, and that of the literals
next to them is not. -/
def Group.IsRun (g : Group) (run : List Literal) : Prop :=
  ∃ before after, g.literals = before ++ run ++ after ∧ run ≠ [] ∧
    (∀ l ∈ run, l.connective = .or) ∧ (∀ l ∈ before.getLast?, l.connective = .and) ∧
    ∀ l ∈ after.head?, l.connective = .and

namespace Clause

/-- The clause stands for literals with its connective. -/
def Proper : Clause → Prop
  | .single l => l.connective = .and
  | .anyOf ls => ls ≠ [] ∧ ∀ l ∈ ls, l.connective = .or

theorem Proper.literals_ne_nil {c : Clause} (h : c.Proper) : c.literals ≠ [] := by
  cases c with
  | single l => exact List.cons_ne_nil l []
  | anyOf ls => exact h.1

/-- The clause is a single literal. -/
def IsSingle : Clause → Prop
  | .single _ => True
  | .anyOf _ => False

theorem ofLiterals_proper (ls : List Literal) : ∀ c ∈ ofLiterals ls, c.Proper := by
  induction ls with
  | nil => exact nofun
  | cons l ls ih =>
    unfold ofLiterals
    split
    · rename_i hl
      exact List.forall_mem_cons.2 ⟨hl, ih⟩
    · rename_i ms cs hl hcs
      rw [hcs] at ih
      obtain ⟨⟨-, hms⟩, hrest⟩ := List.forall_mem_cons.1 ih
      exact List.forall_mem_cons.2
        ⟨⟨List.cons_ne_nil l ms, List.forall_mem_cons.2 ⟨hl, hms⟩⟩, hrest⟩
    · rename_i hl _
      exact List.forall_mem_cons.2
        ⟨⟨List.cons_ne_nil l [], List.forall_mem_cons.2 ⟨hl, nofun⟩⟩, ih⟩

/-- No two runs are neighbours. -/
theorem ofLiterals_isChain (ls : List Literal) :
    (ofLiterals ls).IsChain fun c d => c.IsSingle ∨ d.IsSingle := by
  induction ls with
  | nil => exact .nil
  | cons l ls ih =>
    unfold ofLiterals
    split
    · exact List.isChain_cons.2 ⟨fun _ _ => .inl trivial, ih⟩
    · rename_i ms cs _ hcs
      rw [hcs, List.isChain_cons] at ih
      exact List.isChain_cons.2 ih
    · rename_i hnot
      refine List.isChain_cons.2 ⟨fun d hd => .inr ?_, ih⟩
      cases d with
      | single m => trivial
      | anyOf ms =>
        obtain ⟨cs, hcs⟩ := List.head?_eq_some_iff.1 hd
        exact (hnot ms cs hcs).elim

/-- A clause with alternatives is a longest run. -/
theorem isRun_of_mem_clauses {g : Group} {run : List Literal} (h : .anyOf run ∈ g.clauses) :
    g.IsRun run := by
  obtain ⟨cs, ds, hsplit⟩ := List.append_of_mem h
  have hproper := ofLiterals_proper g.literals
  have hchain := ofLiterals_isChain g.literals
  have hrow := flatMap_literals_ofLiterals g.literals
  rw [← Group.clauses, hsplit] at hproper hchain hrow
  obtain ⟨hcs, hrun, hds⟩ : (∀ c ∈ cs, c.Proper) ∧ (Clause.anyOf run).Proper ∧
      ∀ c ∈ ds, c.Proper := by
    rwa [List.forall_mem_append, List.forall_mem_cons] at hproper
  obtain ⟨-, hnext, hlast⟩ := List.isChain_append.1 hchain
  refine ⟨cs.flatMap literals, ds.flatMap literals, ?_, hrun.1, hrun.2, ?_, ?_⟩
  · rw [← hrow]
    simp [literals]
  · rcases List.eq_nil_or_concat cs with rfl | ⟨cs, c, rfl⟩
    · intro l hl
      cases hl
    · have hsingle := (hlast c (by simp) (.anyOf run) rfl).resolve_right id
      cases c with
      | single l =>
        have hand : l.connective = .and := hcs (.single l) (by simp)
        simpa [literals] using hand
      | anyOf ls => exact hsingle.elim
  · cases ds with
    | nil =>
      intro l hl
      cases hl
    | cons d ds =>
      have hsingle := ((List.isChain_cons.1 hnext).1 d rfl).resolve_left id
      cases d with
      | single l =>
        have hand : l.connective = .and := hds (.single l) List.mem_cons_self
        simpa [literals] using hand
      | anyOf ls => exact hsingle.elim

/-- A run in front of clauses that begin with a single literal is a clause of its own. -/
theorem ofLiterals_run {run rest : List Literal} (hne : run ≠ [])
    (hrun : ∀ l ∈ run, l.connective = .or) (hrest : ∀ c ∈ (ofLiterals rest).head?, c.IsSingle) :
    ofLiterals (run ++ rest) = .anyOf run :: ofLiterals rest := by
  induction run with
  | nil => exact absurd rfl hne
  | cons l ls ih =>
    obtain ⟨hl, hls⟩ := List.forall_mem_cons.1 hrun
    cases ls with
    | nil =>
      rw [List.singleton_append, ofLiterals, hl]
      cases hcs : ofLiterals rest with
      | nil => rfl
      | cons d ds =>
        cases d with
        | single m => rfl
        | anyOf ms =>
          rw [hcs] at hrest
          exact (hrest (.anyOf ms) rfl).elim
    | cons m ms =>
      rw [List.cons_append, ofLiterals, ih (List.cons_ne_nil _ _) hls, hl]

/-- **There is one way to cut a row into clauses.** -/
theorem ofLiterals_flatMap_literals {cs : List Clause} (hproper : ∀ c ∈ cs, c.Proper)
    (hchain : cs.IsChain fun c d => c.IsSingle ∨ d.IsSingle) :
    ofLiterals (cs.flatMap literals) = cs := by
  induction cs with
  | nil => rfl
  | cons c cs ih =>
    obtain ⟨hc, hcs⟩ := List.forall_mem_cons.1 hproper
    obtain ⟨hnext, hchain⟩ := List.isChain_cons.1 hchain
    have hrest := ih hcs hchain
    rw [List.flatMap_cons]
    cases c with
    | single l =>
      have hl : l.connective = .and := hc
      rw [literals, List.singleton_append, ofLiterals, hl, hrest]
    | anyOf ls =>
      rw [literals, ofLiterals_run hc.1 hc.2, hrest]
      rw [hrest]
      exact fun d hd => (hnext d hd).resolve_left id

end Clause

namespace Group

variable {g : Group} {c : Clause}

theorem mem_literals (hc : c ∈ g.clauses) {l : Literal} (hl : l ∈ c.literals) :
    l ∈ g.literals := by
  rw [← Clause.flatMap_literals_ofLiterals g.literals]
  exact List.mem_flatMap.2 ⟨c, hc, hl⟩

theorem clause_ne_nil (hc : c ∈ g.clauses) : c.literals ≠ [] :=
  (Clause.ofLiterals_proper g.literals c hc).literals_ne_nil

end Group

end WordLogic
