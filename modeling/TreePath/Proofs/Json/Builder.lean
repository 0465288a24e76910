import TreePath.Json.Reader

/-!
Building does not look at numbers: a tree built from tokens with their numbers replaced is the tree
built from the tokens, with its numbers replaced.
-/

namespace TreePath

namespace Json

variable {ν μ : Type} (f : ν → μ)

def Token.map : Token ν → Token μ
  | .arrayStart => .arrayStart
  | .arrayEnd => .arrayEnd
  | .objectStart => .objectStart
  | .objectEnd => .objectEnd
  | .comma => .comma
  | .colon => .colon
  | .null => .null
  | .boolean b => .boolean b
  | .number n => .number (f n)
  | .string s => .string s

def Pending.map : Pending ν → Pending μ
  | .item items => .item (items.map (Tree.map f))
  | .member entries key => .member (Tree.mapEntries f entries) key

def Place.map : Place ν → Place μ
  | .value outer => .value (outer.map (Pending.map f))
  | .firstItem outer => .firstItem (outer.map (Pending.map f))
  | .afterItem items outer => .afterItem (items.map (Tree.map f)) (outer.map (Pending.map f))
  | .firstKey outer => .firstKey (outer.map (Pending.map f))
  | .nextKey entries outer => .nextKey (Tree.mapEntries f entries) (outer.map (Pending.map f))
  | .colon entries key outer =>
    .colon (Tree.mapEntries f entries) key (outer.map (Pending.map f))
  | .afterMember entries outer =>
    .afterMember (Tree.mapEntries f entries) (outer.map (Pending.map f))
  | .complete t => .complete (t.map f)

/-- A key keeps its place whatever its value is. -/
theorem insert_mapEntries (key : String) (t : Tree ν) (entries : Entries ν) :
    Entries.insert key (t.map f) (Tree.mapEntries f entries) =
      Tree.mapEntries f (Entries.insert key t entries) := by
  induction entries with
  | nil => rfl
  | cons e rest ih =>
    obtain ⟨k, u⟩ := e
    simp only [Tree.mapEntries, Entries.insert]
    split
    · rfl
    · rw [ih]
      rfl

namespace Place

theorem accept_map (t : Tree ν) (outer : List (Pending ν)) :
    accept (t.map f) (outer.map (Pending.map f)) = (accept t outer).map f := by
  cases outer with
  | nil => rfl
  | cons pending outer =>
    cases pending with
    | item items => rfl
    | member entries key =>
      simp only [List.map_cons, Pending.map, accept, insert_mapEntries]
      rfl

theorem start_map (outer : List (Pending ν)) (token : Token ν) :
    start (outer.map (Pending.map f)) (token.map f) = (start outer token).map (Place.map f) := by
  cases token with
  | arrayStart =>
    simp only [start, Token.map, List.length_map]
    split <;> rfl
  | objectStart =>
    simp only [start, Token.map, List.length_map]
    split <;> rfl
  | null => exact congrArg some (accept_map f .null outer)
  | boolean b => exact congrArg some (accept_map f (.boolean b) outer)
  | number n => exact congrArg some (accept_map f (.number n) outer)
  | string s => exact congrArg some (accept_map f (.string s) outer)
  | _ => rfl

theorem step_firstItem {token : Token ν} (h : token ≠ .arrayEnd) (outer : List (Pending ν)) :
    (firstItem outer).step token = start (.item [] :: outer) token := by
  cases token with
  | arrayEnd => contradiction
  | _ => rfl

/-- One token is taken in the same way, whatever the numbers are. -/
theorem step_map (place : Place ν) (token : Token ν) :
    (place.map f).step (token.map f) = (place.step token).map (Place.map f) := by
  cases place with
  | value outer => exact start_map f outer token
  | firstItem outer =>
    by_cases h : token = .arrayEnd
    · rw [h]
      exact congrArg some (accept_map f (.array []) outer)
    · have hmap : token.map f ≠ .arrayEnd := by
        cases token <;> simp_all [Token.map]
      rw [Place.map, step_firstItem h, step_firstItem hmap]
      exact start_map f (.item [] :: outer) token
  | afterItem items outer =>
    cases token with
    | arrayEnd =>
      have hitems : Tree.map f (.array items.reverse) =
          .array (items.map (Tree.map f)).reverse := by
        simp [Tree.map]
      have haccept := accept_map f (.array items.reverse) outer
      rw [hitems] at haccept
      exact congrArg some haccept
    | _ => rfl
  | firstKey outer =>
    cases token with
    | objectEnd => exact congrArg some (accept_map f (.object []) outer)
    | _ => rfl
  | afterMember entries outer =>
    cases token with
    | objectEnd => exact congrArg some (accept_map f (.object entries) outer)
    | _ => rfl
  | _ => cases token <;> rfl

theorem foldlM_step_map (tokens : List (Token ν)) (place : Place ν) :
    (tokens.map (Token.map f)).foldlM step (place.map f) =
      (tokens.foldlM step place).map (Place.map f) := by
  induction tokens generalizing place with
  | nil => rfl
  | cons token tokens ih =>
    simp only [List.map_cons, List.foldlM_cons, step_map]
    cases place.step token with
    | none => rfl
    | some next => exact ih next

end Place

/-- The tree of tokens with other numbers is the tree of the tokens, with those numbers. -/
theorem build?_map (tokens : List (Token ν)) :
    build? (tokens.map (Token.map f)) = (build? tokens).map (Tree.map f) := by
  have hrun := Place.foldlM_step_map f tokens (.value [])
  unfold build?
  rw [show (Place.value [] : Place μ) = (Place.value []).map f from rfl, hrun]
  cases tokens.foldlM Place.step (.value []) with
  | none => rfl
  | some place => cases place <;> rfl

end Json

end TreePath
