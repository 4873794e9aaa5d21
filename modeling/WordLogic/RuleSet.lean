import WordLogic.Hash.Digest
import WordLogic.Rule

/-!
# Rule sets

A rule set holds rules with their conditions in the order in which they are checked, and the digest
of the source that it was stored with, if it was. In a well-formed set (`WellFormed`) no two rules
share an identifier, priorities do not go down, and every condition is well formed.
-/

namespace WordLogic

/-- A rule and the condition that its text describes. -/
structure Entry where
  rule : Rule
  condition : Condition
deriving Repr, DecidableEq

/-- Rules in the order in which they are checked. -/
structure RuleSet where
  entries : List Entry
  sourceDigest : Option Digest
deriving DecidableEq

namespace RuleSet

/-- The set without rules. -/
def empty : RuleSet := ⟨[], none⟩

/-- Identifiers are distinct, priorities ascend, and the conditions can be evaluated. -/
structure WellFormed (rs : RuleSet) : Prop where
  distinct : (rs.entries.map (·.rule.id)).Nodup
  ascending : rs.entries.Pairwise fun a b => a.rule.priority ≤ b.rule.priority
  conditions : ∀ e ∈ rs.entries, e.condition.WellFormed

/-- The identifiers are distinct, and none of them is taken. -/
def Fresh (taken ids : List Int32) : Prop := (∀ id ∈ ids, id ∉ taken) ∧ ids.Nodup

theorem fresh_nil (taken : List Int32) : Fresh taken [] := ⟨nofun, List.nodup_nil⟩

/-- An identifier that is gone through is taken for those behind it. -/
theorem fresh_cons {taken ids : List Int32} {id : Int32} :
    Fresh taken (id :: ids) ↔ id ∉ taken ∧ Fresh (id :: taken) ids := by
  rw [Fresh, Fresh, List.forall_mem_cons, List.nodup_cons]
  constructor
  · rintro ⟨⟨hid, htaken⟩, hmem, hnodup⟩
    refine ⟨hid, fun x hx h => ?_, hnodup⟩
    rcases List.mem_cons.1 h with rfl | h
    · exact hmem hx
    · exact htaken x hx h
  · rintro ⟨hid, hids, hnodup⟩
    have htaken : ∀ x ∈ ids, x ∉ taken := fun x hx h => hids x hx (List.mem_cons_of_mem id h)
    have hmem : id ∉ ids := fun h => hids id h List.mem_cons_self
    exact ⟨⟨hid, htaken⟩, hmem, hnodup⟩

/-- Where nothing is taken, distinct identifiers are asked for. -/
theorem fresh_iff_nodup {ids : List Int32} : Fresh [] ids ↔ ids.Nodup :=
  and_iff_right fun _ _ => List.not_mem_nil

/-- The identifiers and priorities in the order of checking. -/
def order (rs : RuleSet) : List (Int32 × Int32) :=
  rs.entries.map fun e => (e.rule.id, e.rule.priority)

/-- The rule with an identifier, and its condition. -/
def find? (rs : RuleSet) (id : Int32) : Option Entry := rs.entries.find? (·.rule.id == id)

/-- The rule with an identifier. -/
def rule? (rs : RuleSet) (id : Int32) : Option Rule := (rs.find? id).map (·.rule)

/-- The condition of the rule with an identifier. -/
def condition? (rs : RuleSet) (id : Int32) : Option Condition := (rs.find? id).map (·.condition)

/-- The number of rules. -/
def size (rs : RuleSet) : Nat := rs.entries.length

/-- The set has no rule. -/
def isEmpty (rs : RuleSet) : Bool := rs.entries.isEmpty

/-- The number of groups of all conditions. -/
def groupCount (rs : RuleSet) : Nat := rs.entries.foldr (·.condition.groups.length + ·) 0

/-- The size of the set in words. -/
def message (rs : RuleSet) : String :=
  "RuleSet(" ++ toString rs.size ++ " rules, " ++ toString rs.groupCount ++ " nodes)"

end RuleSet

end WordLogic
