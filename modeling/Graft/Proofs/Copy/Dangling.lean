/-
# Which mention a check reports

A check looks at every mention of a symbol below the root of a tree.  A mention has a place:
the node that makes it and the role of the symbol in that node (`MentionRole`).  Places are
in the order in which the tree is evaluated: a node before those below it, and in one node what
it declares before what it uses.  The check fails with the first mention of a symbol that was
copied, and only such a mention makes it fail (`CopyMap.check_first`).
-/

import Graft.Proofs.Copy.Checking
import Graft.Proofs.Tree.Position

namespace Graft

/-- The part that a symbol plays in a node. -/
inductive MentionRole where
  /-- The symbol that the node declares. -/
  | declared
  /-- What is called, referenced, returned from, read or written. -/
  | target
  /-- The class `C` of a call `super<C>.f()`. -/
  | superClass
deriving DecidableEq, Repr

namespace MentionRole

/-- The place of a role among those of one node. -/
def rank : MentionRole → Nat
  | declared => 0
  | target => 1
  | superClass => 2

/-- The roles in their order. -/
def all : List MentionRole := [declared, target, superClass]

/-- The list of roles leaves none out. -/
theorem mem_all (role : MentionRole) : role ∈ all := by
  cases role <;> decide

/-- The roles are listed in the order they are checked in. -/
theorem all_sorted : all.Pairwise fun a b => a.rank < b.rank := by
  decide

end MentionRole

namespace Node

/-- The symbol that a node mentions in a role. -/
def mention? : Node → MentionRole → Option Symbol
  | .classDecl _ _ symbol _, .declared => some symbol.symbol
  | .functionDecl _ _ symbol _, .declared => some symbol.symbol
  | .constructorDecl _ _ symbol _, .declared => some symbol.symbol
  | .variableDecl _ _ symbol _, .declared => some symbol.symbol
  | .call _ _ _ callee .., .target => some callee.symbol
  | .callableRef _ _ _ target .., .target => some target.symbol
  | .returnFrom _ _ target _, .target => some target.symbol
  | .getValue _ _ symbol, .target => some symbol.symbol
  | .setVariable _ _ symbol _, .target => some symbol.symbol
  | .call _ _ _ _ _ superClass .., .superClass => superClass.map SymbolId.symbol
  | _, _ => none

/-- A node mentions symbols in its roles, in their order. -/
theorem mentions_eq (n : Node) : n.mentions = MentionRole.all.filterMap n.mention? := by
  cases n with
  | call _ _ _ _ _ superClass => cases superClass <;> rfl
  | _ => rfl

/-- A node mentions a symbol in one of the roles. -/
theorem mem_mentions {n : Node} {a : Symbol} :
    a ∈ n.mentions ↔ ∃ role, n.mention? role = some a := by
  rw [mentions_eq, List.mem_filterMap]
  exact ⟨fun ⟨role, _, h⟩ => ⟨role, h⟩, fun ⟨role, h⟩ => ⟨role, role.mem_all, h⟩⟩

/-- What is found first in a node is found in its least role. -/
theorem find?_mentions {n : Node} {p : Symbol → Bool} {a : Symbol} :
    n.mentions.find? p = some a ↔
      ∃ role, n.mention? role = some a ∧ p a = true ∧
        ∀ earlier b, earlier.rank < role.rank → n.mention? earlier = some b → p b = false := by
  rw [mentions_eq, ← List.head?_filter, List.filter_filterMap, List.head?_filterMap,
    findSome?_of_pairwise (fun a b => a.rank < b.rank) Nat.lt_asymm MentionRole.all_sorted]
  simp only [MentionRole.mem_all, true_and, forall_const, Option.filter_eq_some_iff,
    Option.filter_eq_none_iff, Bool.not_eq_true]
  constructor
  · rintro ⟨role, ⟨ha, hp⟩, hnone⟩
    exact ⟨role, ha, hp, fun earlier b hlt hb => hnone earlier hlt b hb⟩
  · rintro ⟨role, ha, hp, hnone⟩
    exact ⟨role, ⟨ha, hp⟩, fun earlier hlt b hb => hnone earlier b hlt hb⟩

end Node

/-- A place below the root of a tree where a symbol can be mentioned: a node, by the path to it,
and a role there. -/
structure MentionPlace where
  path : List Nat
  role : MentionRole
deriving DecidableEq, Repr

/-- Evaluation comes to the one place before the other. -/
def MentionPlace.Before (p q : MentionPlace) : Prop :=
  p.path < q.path ∨ p.path = q.path ∧ p.role.rank < q.role.rank

/-- Below the root, the symbol is mentioned at the place. -/
def Node.MentionsBelow (root : Node) (p : MentionPlace) (a : Symbol) : Prop :=
  p.path ≠ [] ∧ ∃ n, root.at? p.path = some n ∧ n.mention? p.role = some a

namespace CopyMap

variable {map : CopyMap} {root : Node}

/-- The check fails just when there is a dangling mention, and says which. -/
theorem check_eq_error_iff {e : Rejection} :
    map.check root = .error e ↔ ∃ a, map.dangling? root = some a ∧ e = .dangling a := by
  rw [check]
  cases map.dangling? root with
  | none => simp
  | some a => simp [eq_comm]

/-- **The symbol that a check finds** is the first one below the root that was copied. -/
theorem dangling?_eq_some_iff {a : Symbol} :
    map.dangling? root = some a ↔
      ∃ p, root.MentionsBelow p a ∧ a ∈ map.keys ∧
        ∀ q b, q.Before p → root.MentionsBelow q b → b ∉ map.keys := by
  rw [dangling?_eq, Node.findSome?_descendants]
  constructor
  · rintro ⟨path, n, hne, hat, hfound, hnone⟩
    obtain ⟨role, hrole, hkey, hroles⟩ := Node.find?_mentions.1 hfound
    refine ⟨⟨path, role⟩, ⟨hne, n, hat, hrole⟩, isCopied_iff.1 hkey, ?_⟩
    rintro ⟨path', role'⟩ b (hlt | ⟨heq, hlt⟩) ⟨hne', m, hat', hb⟩ hmem
    · exact List.find?_eq_none.1 (hnone path' m hne' hlt hat') b
        (Node.mem_mentions.2 ⟨role', hb⟩) (isCopied_iff.2 hmem)
    · subst heq
      cases hat.symm.trans hat'
      have hfalse := hroles role' b hlt hb
      rw [isCopied_iff.2 hmem] at hfalse
      cases hfalse
  · rintro ⟨⟨path, role⟩, ⟨hne, n, hat, hrole⟩, hkey, hnone⟩
    refine ⟨path, n, hne, hat, Node.find?_mentions.2 ⟨role, hrole, isCopied_iff.2 hkey, ?_⟩, ?_⟩
    · intro earlier b hlt hb
      rw [Bool.eq_false_iff, Ne, isCopied_iff]
      exact hnone ⟨path, earlier⟩ b (.inr ⟨rfl, hlt⟩) ⟨hne, n, hat, hb⟩
    · intro earlier m hm hlt hat'
      rw [List.find?_eq_none]
      intro b hb
      obtain ⟨role', hb⟩ := Node.mem_mentions.1 hb
      rw [isCopied_iff]
      exact hnone ⟨earlier, role'⟩ b (.inl hlt) ⟨hm, m, hat', hb⟩

/-- A check accepts a tree in which nothing below the root mentions a symbol that was copied. -/
theorem check_eq_ok_iff_below :
    map.check root = .ok () ↔ ∀ p a, root.MentionsBelow p a → a ∉ map.keys := by
  rw [check_eq_ok_iff]
  constructor
  · rintro h ⟨path, role⟩ a ⟨hne, n, hat, hrole⟩
    exact h n (Node.mem_descendants_iff.2 ⟨path, hne, hat⟩) a (Node.mem_mentions.2 ⟨role, hrole⟩)
  · intro h n hn a ha
    obtain ⟨path, hne, hat⟩ := Node.mem_descendants_iff.1 hn
    obtain ⟨role, hrole⟩ := Node.mem_mentions.1 ha
    exact h ⟨path, role⟩ a ⟨hne, n, hat, hrole⟩

/-- **What a check says.**  It accepts a tree if no place below the root mentions a symbol that
was copied.  Otherwise it reports the symbol at the first such place, where the places are in
evaluation order: a node comes before what is below it, an earlier child with all that is below
it before a later one, and in one node the declared symbol before the target and the target
before the class of a `super` call.  What the root itself mentions has no part in it, and of the
map only which symbols have a copy, not what the copies are. -/
theorem check_first (map : CopyMap) (root : Node) :
    (map.check root = .ok () ↔ ∀ p a, root.MentionsBelow p a → a ∉ map.keys) ∧
    (∀ e, map.check root = .error e ↔
      ∃ p a, root.MentionsBelow p a ∧ a ∈ map.keys ∧ e = .dangling a ∧
        ∀ q b, q.Before p → root.MentionsBelow q b → b ∉ map.keys) ∧
    (∀ other : Node, other.children = root.children → map.check other = map.check root) ∧
    ∀ map' : CopyMap, (∀ a, a ∈ map'.keys ↔ a ∈ map.keys) →
      map'.check root = map.check root := by
  refine ⟨check_eq_ok_iff_below, fun e => ?_, fun other hchildren => ?_, fun map' hkeys => ?_⟩
  · rw [check_eq_error_iff]
    constructor
    · rintro ⟨a, hfound, rfl⟩
      obtain ⟨p, hp, hkey, hfirst⟩ := dangling?_eq_some_iff.1 hfound
      exact ⟨p, a, hp, hkey, rfl, hfirst⟩
    · rintro ⟨p, a, hp, hkey, rfl, hfirst⟩
      exact ⟨a, dangling?_eq_some_iff.2 ⟨p, hp, hkey, hfirst⟩, rfl⟩
  · rw [check, check, dangling?, dangling?, hchildren]
  · have hcopied : map'.isCopied = map.isCopied := by
      funext a
      rw [Bool.eq_iff_iff, isCopied_iff, isCopied_iff, hkeys]
    rw [check, check, dangling?_eq, dangling?_eq, hcopied]

/-- In a block that assigns `x` to `y` and then reads `y`, where both were copied, the first
mention is that of `y` as the variable assigned to. -/
theorem check_first_sample :
    ({ vars := (Dict.insert ∅ ⟨0⟩ ⟨2⟩).insert ⟨1⟩ ⟨3⟩ } : CopyMap).check
        (.block ⟨0, 9⟩ ⟨5⟩ [
          .setVariable ⟨0, 5⟩ .source ⟨1⟩ (.getValue ⟨4, 5⟩ .source (.var ⟨0⟩)),
          .getValue ⟨6, 7⟩ .source (.var ⟨1⟩)]) = .error (.dangling ⟨.var, 1⟩) := by
  refine ((check_first _ _).2.1 _).2 ⟨⟨[0], .target⟩, ⟨.var, 1⟩, ⟨nofun, _, rfl, rfl⟩,
    isCopied_iff.1 (by decide), rfl, ?_⟩
  rintro ⟨path, role⟩ b (hlt | ⟨rfl, hlt⟩) ⟨hne, n, hat, hrole⟩
  · -- no path but the empty one comes before that to the first child
    cases path with
    | nil => exact absurd rfl hne
    | cons i path =>
      rcases List.cons_lt_cons_iff.1 hlt with h | ⟨-, h⟩
      · exact absurd h (Nat.not_lt_zero i)
      · exact absurd h (List.not_lt_nil path)
  · cases hat
    cases role with
    | declared => cases hrole
    | target | superClass => exact absurd hlt (by decide)

end CopyMap

end Graft
