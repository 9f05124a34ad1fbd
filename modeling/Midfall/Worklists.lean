import Mathlib
import Midfall.ListLoops

/-!
# Worklists

A stack of entries, each expanded at its first visit. The visited entries are
those that the expansion reaches, and a finite closed set bounds the steps.
-/

namespace Midfall.Worklists

open List

variable {Entry : Type} [DecidableEq Entry]

/-- The visited entries in the order of their visits; the last pushed entry is popped first. -/
def explore (next : Entry → Option (List Entry)) : Nat → List Entry → List Entry → Option (List Entry)
  | _, [], visited => some visited
  | 0, _ :: _, _ => none
  | fuel + 1, entry :: pending, visited =>
    if entry ∈ visited then explore next fuel pending visited
    else do
      let targets ← next entry
      explore next fuel (targets.reverse ++ pending) (visited ++ [entry])

def Leads (next : Entry → Option (List Entry)) (entry target : Entry) : Prop :=
  ∃ targets, next entry = some targets ∧ target ∈ targets

def Reaches (next : Entry → Option (List Entry)) : Entry → Entry → Prop :=
  Relation.ReflTransGen (Leads next)

structure Explored (next : Entry → Option (List Entry)) (pending visited result : List Entry) : Prop where
  distinct : visited.Nodup → result.Nodup
  kept : ∀ entry ∈ visited, entry ∈ result
  served : ∀ entry ∈ pending, entry ∈ result
  expanded : ∀ entry ∈ result, entry ∉ visited →
    ∃ targets, next entry = some targets ∧ ∀ target ∈ targets, target ∈ result
  origin : ∀ entry ∈ result, entry ∈ visited ∨ ∃ start ∈ pending, Reaches next start entry

variable {next : Entry → Option (List Entry)}

omit [DecidableEq Entry] in
theorem explored_nil {visited : List Entry} : Explored next [] visited visited :=
  ⟨id, fun _ mem => mem, fun _ mem => absurd mem not_mem_nil,
    fun _ mem fresh => absurd mem fresh, fun _ mem => Or.inl mem⟩

variable {fuel : Nat} {pending visited result : List Entry}

theorem explored_of_run (run : explore next fuel pending visited = some result) :
    Explored next pending visited result := by
  induction fuel generalizing pending visited with
  | zero =>
    cases pending with
    | cons entry pending =>
      rw [explore] at run
      cases run
    | nil =>
      rw [explore] at run
      cases run
      exact explored_nil
  | succ fuel ih =>
    cases pending with
    | nil =>
      rw [explore] at run
      cases run
      exact explored_nil
    | cons entry pending =>
      rw [explore] at run
      by_cases seen : entry ∈ visited
      · rw [if_pos seen] at run
        have rest := ih run
        refine ⟨rest.distinct, rest.kept, ?_, rest.expanded, ?_⟩
        · intro other mem
          rcases mem_cons.mp mem with rfl | later
          · exact rest.kept other seen
          · exact rest.served other later
        · intro other mem
          rcases rest.origin other mem with old | ⟨start, inside, reaches⟩
          · exact Or.inl old
          · exact Or.inr ⟨start, mem_cons_of_mem _ inside, reaches⟩
      · rw [if_neg seen] at run
        rcases bind_some_iff.mp run with ⟨targets, expands, continued⟩
        have rest := ih continued
        have entryIn : entry ∈ result :=
          rest.kept entry (mem_append_right _ (mem_singleton_self entry))
        have targetsIn : ∀ target ∈ targets, target ∈ result := fun target mem =>
          rest.served target (mem_append_left _ (mem_reverse.mpr mem))
        refine ⟨?_, ?_, ?_, ?_, ?_⟩
        · intro distinct
          apply rest.distinct
          rw [nodup_append]
          refine ⟨distinct, nodup_singleton entry, ?_⟩
          rintro other mem _ single rfl
          rw [mem_singleton.mp single] at mem
          exact seen mem
        · exact fun other mem => rest.kept other (mem_append_left _ mem)
        · intro other mem
          rcases mem_cons.mp mem with rfl | later
          · exact entryIn
          · exact rest.served other (mem_append_right _ later)
        · intro other mem fresh
          by_cases same : other = entry
          · rw [same]
            exact ⟨targets, expands, targetsIn⟩
          · apply rest.expanded other mem
            rw [mem_append, mem_singleton]
            exact not_or.mpr ⟨fresh, same⟩
        · intro other mem
          rcases rest.origin other mem with old | ⟨start, inside, reaches⟩
          · rcases mem_append.mp old with before | single
            · exact Or.inl before
            · rw [mem_singleton.mp single]
              exact Or.inr ⟨entry, mem_cons_self, Relation.ReflTransGen.refl⟩
          · rcases mem_append.mp inside with target | later
            · have leads : Leads next entry start :=
                ⟨targets, expands, mem_reverse.mp target⟩
              exact Or.inr ⟨entry, mem_cons_self, Relation.ReflTransGen.head leads reaches⟩
            · exact Or.inr ⟨start, mem_cons_of_mem _ later, reaches⟩

theorem visited_prefix (run : explore next fuel pending visited = some result) :
    visited <+: result := by
  induction fuel generalizing pending visited with
  | zero =>
    cases pending with
    | cons entry pending =>
      rw [explore] at run
      cases run
    | nil =>
      rw [explore] at run
      cases run
      exact prefix_refl _
  | succ fuel ih =>
    cases pending with
    | nil =>
      rw [explore] at run
      cases run
      exact prefix_refl _
    | cons entry pending =>
      rw [explore] at run
      split_ifs at run with seen
      · exact ih run
      · rcases bind_some_iff.mp run with ⟨targets, -, continued⟩
        exact (prefix_append visited [entry]).trans (ih continued)

theorem first_visited {start : Entry} {result : List Entry}
    (run : explore next fuel [start] [] = some result) : result[0]? = some start := by
  cases fuel with
  | zero =>
    rw [explore] at run
    cases run
  | succ fuel =>
    rw [explore, if_neg not_mem_nil] at run
    rcases bind_some_iff.mp run with ⟨targets, -, continued⟩
    rcases visited_prefix continued with ⟨rest, rfl⟩
    rfl

theorem explore_some (closed : Finset Entry) {width : Nat}
    (expands : ∀ entry ∈ closed, ∃ targets, next entry = some targets ∧
      targets.length ≤ width ∧ ∀ target ∈ targets, target ∈ closed) {fuel : Nat}
    {pending visited : List Entry} (pendingIn : ∀ entry ∈ pending, entry ∈ closed)
    (visitedIn : ∀ entry ∈ visited, entry ∈ closed) (distinct : visited.Nodup)
    (enough : pending.length + (closed.card - visited.length) * width ≤ fuel) :
    ∃ result, explore next fuel pending visited = some result := by
  induction fuel generalizing pending visited with
  | zero =>
    have none : pending = [] := by
      apply eq_nil_of_length_eq_zero
      omega
    rw [none, explore]
    exact ⟨visited, rfl⟩
  | succ fuel ih =>
    cases pending with
    | nil =>
      rw [explore]
      exact ⟨visited, rfl⟩
    | cons entry pending =>
      rw [explore]
      rw [length_cons] at enough
      have laterIn := (forall_mem_cons.mp pendingIn).2
      by_cases seen : entry ∈ visited
      · rw [if_pos seen]
        exact ih laterIn visitedIn distinct (by omega)
      · rw [if_neg seen]
        have entryIn := pendingIn entry mem_cons_self
        rcases expands entry entryIn with ⟨targets, found, short, inside⟩
        have grown : (visited ++ [entry]).Nodup := by
          rw [nodup_append]
          refine ⟨distinct, nodup_singleton entry, ?_⟩
          rintro other mem _ single rfl
          rw [mem_singleton.mp single] at mem
          exact seen mem
        have grownIn : ∀ other ∈ visited ++ [entry], other ∈ closed := by
          intro other mem
          rcases mem_append.mp mem with before | single
          · exact visitedIn other before
          · rw [mem_singleton.mp single]
            exact entryIn
        have room : (visited ++ [entry]).length ≤ closed.card := by
          rw [← toFinset_card_of_nodup grown]
          exact Finset.card_le_card fun other mem =>
            grownIn other (mem_toFinset.mp mem)
        rw [length_append, length_singleton] at room
        have split : closed.card - visited.length = closed.card - (visited.length + 1) + 1 := by
          omega
        rw [found]
        refine ih ?_ grownIn grown ?_
        · intro other mem
          rcases mem_append.mp mem with target | later
          · exact inside other (mem_reverse.mp target)
          · exact laterIn other later
        · rw [split, Nat.succ_mul] at enough
          rw [length_append, length_append, length_reverse, length_singleton]
          omega

theorem mem_explore {start : Entry} {result : List Entry}
    (run : explore next fuel [start] [] = some result) {entry : Entry} :
    entry ∈ result ↔ Reaches next start entry := by
  have explored := explored_of_run run
  constructor
  · intro mem
    rcases explored.origin entry mem with old | ⟨other, inside, reaches⟩
    · exact absurd old not_mem_nil
    · rw [mem_singleton.mp inside] at reaches
      exact reaches
  · intro reaches
    induction reaches with
    | refl => exact explored.served start (mem_singleton_self start)
    | tail _ leads ih =>
      rcases explored.expanded _ ih not_mem_nil with ⟨targets, found, inside⟩
      rcases leads with ⟨others, expands, mem⟩
      rw [found] at expands
      cases expands
      exact inside _ mem

end Midfall.Worklists
