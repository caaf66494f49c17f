import CExpr.Operator.Tier

/-!
# Tables of operators

A kind stands for an operator exactly when the two are an entry of the table, since no kind has two
entries.
-/

namespace CExpr

/-- Looking up in a table without repeated kinds finds its entries and nothing else. -/
theorem lookup_eq_some_iff_mem {α : Type} {table : List (Kind × α)}
    (h : ∀ entry ∈ table, table.lookup entry.1 = some entry.2) {kind : Kind} {op : α} :
    table.lookup kind = some op ↔ (kind, op) ∈ table := by
  constructor
  · intro hlookup
    obtain ⟨before, after, heq, -⟩ := List.lookup_eq_some_iff.1 hlookup
    rw [heq]
    exact List.mem_append_right before List.mem_cons_self
  · intro hmem
    exact h (kind, op) hmem

variable {kind : Kind}

theorem AssignOp.ofKind?_eq_some_iff {op : AssignOp} :
    AssignOp.ofKind? kind = some op ↔ (kind, op) ∈ AssignOp.table :=
  lookup_eq_some_iff_mem (by decide)

theorem UnaryOp.ofKind?_eq_some_iff {op : UnaryOp} :
    UnaryOp.ofKind? kind = some op ↔ (kind, op) ∈ UnaryOp.table :=
  lookup_eq_some_iff_mem (by decide)

theorem SuffixOp.ofKind?_eq_some_iff {op : SuffixOp} :
    SuffixOp.ofKind? kind = some op ↔ (kind, op) ∈ SuffixOp.table :=
  lookup_eq_some_iff_mem (by decide)

theorem Tier.operator?_eq_some_iff {tier : Tier} {op : BinaryOp} :
    tier.operator? kind = some op ↔ (kind, op) ∈ tier.table :=
  lookup_eq_some_iff_mem (by cases tier <;> decide)

/-- An operator read in a tier belongs to it. -/
theorem Tier.tier_of_operator? {tier : Tier} {op : BinaryOp} (h : tier.operator? kind = some op) :
    op.tier = tier :=
  Tier.mem_table_iff.1 (List.mem_map.2 ⟨(kind, op), Tier.operator?_eq_some_iff.1 h, rfl⟩)

end CExpr
