import TreePath.Proofs.Json.Nesting

/-!
The tokens of a tree. The builder makes the tree again from them, wherever there is room for it.
-/

namespace TreePath

namespace Tree

variable {ν : Type}

mutual

def tokens : Tree ν → List (Json.Token ν)
  | .null => [.null]
  | .boolean b => [.boolean b]
  | .number n => [.number n]
  | .string s => [.string s]
  | .array items => .arrayStart :: itemsTokens items ++ [.arrayEnd]
  | .object entries => .objectStart :: entriesTokens entries ++ [.objectEnd]

def itemsTokens : List (Tree ν) → List (Json.Token ν)
  | [] => []
  | t :: rest => t.tokens ++ if rest.isEmpty then [] else .comma :: itemsTokens rest

def entriesTokens : List (String × Tree ν) → List (Json.Token ν)
  | [] => []
  | (key, t) :: rest =>
    .string key :: .colon :: t.tokens ++ if rest.isEmpty then [] else .comma :: entriesTokens rest

end

theorem exists_tokens_eq_cons (t : Tree ν) :
    ∃ token rest, t.tokens = token :: rest ∧ token ≠ .arrayEnd := by
  cases t <;> exact ⟨_, _, rfl, by simp⟩

theorem itemsTokens_singleton (t : Tree ν) : itemsTokens [t] = t.tokens := List.append_nil _

theorem itemsTokens_cons_cons (t u : Tree ν) (rest : List (Tree ν)) :
    itemsTokens (t :: u :: rest) = t.tokens ++ .comma :: itemsTokens (u :: rest) := rfl

theorem entriesTokens_singleton (key : String) (t : Tree ν) :
    entriesTokens [(key, t)] = .string key :: .colon :: t.tokens := List.append_nil _

theorem entriesTokens_cons_cons (key : String) (t : Tree ν) (e : String × Tree ν)
    (rest : Entries ν) : entriesTokens ((key, t) :: e :: rest) =
      .string key :: .colon :: (t.tokens ++ .comma :: entriesTokens (e :: rest)) := rfl

end Tree

namespace Json

variable {ν : Type}

/-- A new key goes last. -/
theorem insert_of_not_mem {key : String} {entries : Entries ν} (h : key ∉ entries.map Prod.fst)
    (t : Tree ν) : Entries.insert key t entries = entries ++ [(key, t)] := by
  induction entries with
  | nil => rfl
  | cons e rest ih =>
    obtain ⟨k, u⟩ := e
    rw [List.map_cons, List.mem_cons, not_or] at h
    rw [Entries.insert, if_neg (Ne.symm h.1), ih h.2, List.cons_append]

namespace Place

theorem foldlM_of_step {place next : Place ν} {token : Token ν} (h : place.step token = some next)
    (tokens : List (Token ν)) :
    (token :: tokens).foldlM step place = tokens.foldlM step next := by
  rw [List.foldlM_cons, h]
  rfl

/-- The tokens of a tree are taken as the tree, where a value is waited for. -/
def Takes (t : Tree ν) : Prop :=
  ∀ (outer : List (Pending ν)) (rest : List (Token ν)), Fits outer.length t →
    (t.tokens ++ rest).foldlM step (.value outer) = rest.foldlM step (accept t outer)

/-- Items are taken one after the other, up to the end of their array. -/
theorem foldlM_items {items : List (Tree ν)} {outer : List (Pending ν)} (hne : items ≠ [])
    (htakes : ∀ t ∈ items, Takes t) (hfits : ∀ t ∈ items, Fits (outer.length + 1) t)
    (done : List (Tree ν)) (rest : List (Token ν)) :
    (Tree.itemsTokens items ++ rest).foldlM step (.value (.item done :: outer)) =
      rest.foldlM step (.afterItem (items.reverse ++ done) outer) := by
  induction items generalizing done with
  | nil => contradiction
  | cons t items ih =>
    obtain ⟨ht, hitems⟩ := List.forall_mem_cons.1 htakes
    obtain ⟨hfit, hfits⟩ := List.forall_mem_cons.1 hfits
    cases items with
    | nil =>
      rw [Tree.itemsTokens_singleton, ht (.item done :: outer) rest hfit]
      rfl
    | cons u items =>
      have hcomma : (afterItem (t :: done) outer).step .comma =
          some (.value (.item (t :: done) :: outer)) := rfl
      rw [Tree.itemsTokens_cons_cons, List.append_assoc, ht (.item done :: outer) _ hfit, accept,
        List.cons_append, foldlM_of_step hcomma,
        ih (List.cons_ne_nil u items) hitems hfits (t :: done), List.reverse_cons (a := t),
        List.append_assoc]
      rfl

/-- Entries with new keys are taken one after the other, up to the end of their object. -/
theorem foldlM_entries {entries : Entries ν} {outer : List (Pending ν)} (hne : entries ≠ [])
    (htakes : ∀ e ∈ entries, Takes e.2) (hfits : ∀ e ∈ entries, Fits (outer.length + 1) e.2)
    (done : Entries ν) (hkeys : ((done ++ entries).map Prod.fst).Nodup) (rest : List (Token ν)) :
    (Tree.entriesTokens entries ++ rest).foldlM step (.nextKey done outer) =
      rest.foldlM step (.afterMember (done ++ entries) outer) := by
  induction entries generalizing done with
  | nil => contradiction
  | cons e entries ih =>
    obtain ⟨key, t⟩ := e
    obtain ⟨ht, hentries⟩ := List.forall_mem_cons.1 htakes
    obtain ⟨hfit, hfits⟩ := List.forall_mem_cons.1 hfits
    have hnew : key ∉ done.map Prod.fst := by
      rw [List.map_append, List.map_cons] at hkeys
      intro hmem
      exact (List.nodup_append.1 hkeys).2.2 key hmem key List.mem_cons_self rfl
    have hkey : (nextKey done outer).step (.string key) = some (.colon done key outer) := rfl
    have hcolon : (colon done key outer).step .colon =
        some (.value (.member done key :: outer)) := rfl
    have haccept : accept t (.member done key :: outer) =
        .afterMember (done ++ [(key, t)]) outer := by
      rw [accept, insert_of_not_mem hnew]
    cases entries with
    | nil =>
      rw [Tree.entriesTokens_singleton, List.cons_append, foldlM_of_step hkey, List.cons_append,
        foldlM_of_step hcolon, ht (.member done key :: outer) rest hfit, haccept]
    | cons e entries =>
      have hcomma : (afterMember (done ++ [(key, t)]) outer).step .comma =
          some (.nextKey (done ++ [(key, t)]) outer) := rfl
      have hsplit : done ++ (key, t) :: e :: entries = done ++ [(key, t)] ++ e :: entries := by simp
      rw [hsplit] at hkeys ⊢
      rw [Tree.entriesTokens_cons_cons, List.cons_append, foldlM_of_step hkey, List.cons_append,
        foldlM_of_step hcolon, List.append_assoc, ht (.member done key :: outer) _ hfit, haccept,
        List.cons_append, foldlM_of_step hcomma,
        ih (List.cons_ne_nil e entries) hentries hfits _ hkeys]

/-- The first item of an array is taken as any other value. -/
theorem foldlM_firstItem (t : Tree ν) (items : List (Tree ν)) (outer : List (Pending ν))
    (rest : List (Token ν)) :
    (Tree.itemsTokens (t :: items) ++ rest).foldlM step (.firstItem outer) =
      (Tree.itemsTokens (t :: items) ++ rest).foldlM step (.value (.item [] :: outer)) := by
  obtain ⟨token, more, htokens, htoken⟩ := t.exists_tokens_eq_cons
  rw [Tree.itemsTokens, htokens, List.cons_append, List.cons_append, List.foldlM_cons,
    List.foldlM_cons, step_firstItem htoken]
  rfl

theorem takes (t : Tree ν) : Takes t := by
  induction t using Tree.induction with
  | null => exact fun outer rest _ => foldlM_of_step rfl rest
  | boolean b => exact fun outer rest _ => foldlM_of_step rfl rest
  | number n => exact fun outer rest _ => foldlM_of_step rfl rest
  | string s => exact fun outer rest _ => foldlM_of_step rfl rest
  | array items ih =>
    intro outer rest hfits
    obtain ⟨hlevel, hchildren⟩ := fits_array_iff.1 hfits
    have hopen : (value outer).step .arrayStart = some (firstItem outer) := if_pos hlevel
    rw [Tree.tokens, List.cons_append, List.cons_append, foldlM_of_step hopen, List.append_assoc]
    cases items with
    | nil => exact foldlM_of_step rfl rest
    | cons t items =>
      have hclose : (afterItem ((t :: items).reverse ++ []) outer).step .arrayEnd =
          some (accept (.array (t :: items)) outer) := by
        rw [List.append_nil, step, List.reverse_reverse]
      rw [foldlM_firstItem, foldlM_items (List.cons_ne_nil t items) ih hchildren,
        List.singleton_append, foldlM_of_step hclose]
  | object entries ih =>
    intro outer rest hfits
    obtain ⟨hlevel, hkeys, hchildren⟩ := fits_object_iff.1 hfits
    have hopen : (value outer).step .objectStart = some (firstKey outer) := if_pos hlevel
    rw [Tree.tokens, List.cons_append, List.cons_append, foldlM_of_step hopen, List.append_assoc]
    cases entries with
    | nil => exact foldlM_of_step rfl rest
    | cons e entries =>
      have hclose : (afterMember ([] ++ e :: entries) outer).step .objectEnd =
          some (accept (.object (e :: entries)) outer) := rfl
      have hfirst := foldlM_entries (List.cons_ne_nil e entries) ih hchildren [] hkeys
        ([.objectEnd] ++ rest)
      -- The first key is taken as any other, with no entries before it.
      refine Eq.trans ?_ (hfirst.trans (foldlM_of_step hclose rest))
      rfl

end Place

/-- A tree is built from its tokens exactly where it fits. -/
theorem build?_tokens_iff (t : Tree ν) : build? t.tokens = some t ↔ Fits 0 t := by
  refine ⟨fits_of_build?, fun h => ?_⟩
  have hrun := Place.takes t [] [] h
  rw [List.append_nil] at hrun
  rw [build?, hrun]
  rfl

end Json

end TreePath
