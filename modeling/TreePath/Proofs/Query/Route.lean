import TreePath.Proofs.Path.Printer
import TreePath.Proofs.Query.Answer
import TreePath.Proofs.Query.Reroot
import TreePath.Proofs.Tree.Route

/-!
Which texts are one path, and where in an object they lead.
-/

namespace TreePath

/-!
Texts of one path. A text is read as the same path as its canonical writing, and as no path that is
written in another way, so that a question cannot tell two texts apart which differ in superfluous
zeros only.
-/

namespace Path

variable {s t : String} {p r : Path}

/-- Texts are read as one path exactly where their canonical writings coincide. -/
theorem eq_iff_canonical_eq (hs : read s = .ok p) (ht : read t = .ok r) :
    p = r ↔ canonical s = canonical t := by
  rw [← text_of_read hs, ← text_of_read ht]
  constructor
  · rintro rfl
    rfl
  · intro htext
    have hread := read_text_of_read hs
    rw [htext, read_text_of_read ht] at hread
    exact (Except.ok.inj hread).symm

end Path

namespace Query

/-- Nothing but the path that is read from a text counts for the answer, and for the events. -/
theorem answer_congr {ν : Type} [Numeric ν] (q : Query ν) {s t : String}
    (h : Path.read s = Path.read t) (question : Question) (first second : Option PathCache) :
    (q.answer s question first).result = (q.answer t question second).result ∧
      (q.answer s question first).events = (q.answer t question second).events := by
  rw [answer_result, answer_result, answer_events, answer_events, h]
  exact ⟨rfl, rfl⟩

/-- A path is written as the text that it was read from, less the superfluous zeros of its positions:
as the very text exactly where there are none. What is written is read as the path. Two texts are
read as one path exactly where they coincide without their superfluous zeros, and then every question
has the same answer, and logs the same, for both. -/
theorem text_of_read_canonical {s : String} {p : Path} (hs : Path.read s = .ok p) :
    p.text = Path.canonical s ∧ (p.text = s ↔ ¬ Path.HasLeadingZero s) ∧
    Path.read p.text = .ok p ∧
    ∀ (t : String) (r : Path), Path.read t = .ok r →
      (p = r ↔ Path.canonical s = Path.canonical t) ∧
      (Path.canonical s = Path.canonical t →
        ∀ {ν : Type} [Numeric ν] (q : Query ν) (question : Question)
          (first second : Option PathCache),
          (q.answer s question first).result = (q.answer t question second).result ∧
          (q.answer s question first).events = (q.answer t question second).events) := by
  have htext := Path.text_of_read hs
  refine ⟨htext, ?_, Path.read_text_of_read hs, ?_⟩
  · rw [htext]
    exact Path.canonical_eq_self_iff s
  · intro t r ht
    refine ⟨Path.eq_iff_canonical_eq hs ht, ?_⟩
    intro hcanonical ν _ q
    obtain rfl := (Path.eq_iff_canonical_eq hs ht).2 hcanonical
    exact q.answer_congr (hs.trans ht.symm)

/-- Positions lose their zeros, and names keep them; both texts find the same node. -/
theorem text_of_read_canonical_zeros : ∃ p, Path.read "a0[007].00[000]" = .ok p ∧
    p.text = "a0[7].00[0]" ∧ Path.HasLeadingZero "a0[007].00[000]" ∧
    ((⟨some (.object [("a0", .array [])])⟩ : Query Number).answer "a0[007].00[000]"
        .contains none).result =
      ((⟨some (.object [("a0", .array [])])⟩ : Query Number).answer "a0[7].00[0]"
        .contains none).result := by
  have hs : ∃ p, Path.read "a0[007].00[000]" = .ok p := ⟨_, rfl⟩
  have ht : ∃ r, Path.read "a0[7].00[0]" = .ok r := ⟨_, rfl⟩
  obtain ⟨p, hs⟩ := hs
  obtain ⟨r, ht⟩ := ht
  obtain ⟨hcanonical, hzeros, -, hother⟩ := text_of_read_canonical hs
  have htext : p.text = "a0[7].00[0]" := hcanonical.trans (by decide)
  refine ⟨p, hs, htext, ?_, ?_⟩
  · by_contra hnone
    have hsame := htext.symm.trans (hzeros.2 hnone)
    contradiction
  · exact ((hother _ r ht).2 (by decide) _ _ none none).1

end Query

/-!
Addresses in an object. A text resolves to the node at the end of the route that it spells, every
route of plain keys is spelled by its own text, and no text spells two of them.
-/

/-- A route of plain keys from the root to the node, which is written as the text. -/
structure Route.Addresses {ν : Type} (route : Route) (t node : Tree ν) (text : String) : Prop where
  plain : route.IsPlain
  leads : t.follow? route = some node
  written : Route.text route = text

namespace Query

variable {ν : Type}

/-- A text resolves to a node exactly where it is in order and the route that it spells leads to
the node. -/
theorem resolve_eq_some_iff (t node : Tree ν) (text : String) (cache : Option PathCache) :
    ((⟨some t⟩ : Query ν).resolve text cache).result = .ok (some node) ↔
      ∃ p, Path.read text = .ok p ∧ t.follow? p.route = some node := by
  rw [resolve_result]
  cases Path.read text with
  | error e => simp [Except.map]
  | ok p => simp [Except.map, find_value, Tree.at?_eq_follow?]

end Query

namespace Route

variable {ν : Type}

/-- The route of a text that is read has plain keys, and is written as the text without its
superfluous zeros. -/
theorem addresses_of_read {t node : Tree ν} {text : String} {p : Path}
    (hread : Path.read text = .ok p) (hnode : t.follow? p.route = some node) :
    Route.Addresses p.route t node (Path.canonical text) where
  plain := Path.isPlain_route_of_read hread
  leads := hnode
  written := (Path.text_route p).trans (Path.text_of_read hread)

/-- In an object a route of plain keys is the route of the path that its text is read as. -/
theorem IsPlain.read_text {route : Route} (h : route.IsPlain) {entries : Entries ν}
    (hleads : ((Tree.object entries).follow? route).isSome) :
    ∃ p, Path.read (Route.text route) = .ok p ∧ p.route = route := by
  obtain ⟨hop, rest, rfl⟩ := List.exists_cons_of_ne_nil h.nonempty
  obtain ⟨name, rfl⟩ := Tree.exists_key_of_follow? hleads
  obtain ⟨p, hp⟩ := Path.exists_route_eq name rest
  refine ⟨p, ?_, hp⟩
  rw [← hp, Path.text_route, Path.read_text_eq_ok_iff, ← Path.isPlain_route_iff, hp]
  exact h

end Route

namespace Query

variable {ν : Type}

/-- In an object, the text of every route of plain keys resolves to the node at its end. A text that
resolves to a node takes exactly one such route, whose text it is but for superfluous zeros. So no
text takes a route with another key, and a node that is found on such a route only is not found. -/
theorem resolve_iff_route (entries : Entries ν) (cache : Option PathCache) :
    (∀ (route : Route) node, route.IsPlain → (Tree.object entries).follow? route = some node →
      ∃ p, Path.read (Route.text route) = .ok p ∧ p.route = route ∧
        ((⟨some (.object entries)⟩ : Query ν).resolve (Route.text route) cache).result =
          .ok (some node)) ∧
    (∀ text node, ((⟨some (.object entries)⟩ : Query ν).resolve text cache).result =
        .ok (some node) →
      ∃ p, Path.read text = .ok p ∧
        Route.Addresses p.route (.object entries) node (Path.canonical text) ∧
        ∀ (other : Route) found,
          other.Addresses (.object entries) found (Path.canonical text) → other = p.route) ∧
    (∀ route : Route, (∃ hop ∈ route, ¬ hop.IsPlain) → ∀ text,
      (∀ p, Path.read text = .ok p → p.route ≠ route) ∧
      ∀ node, (∀ other, (Tree.object entries).follow? other = some node → other = route) →
        ((⟨some (.object entries)⟩ : Query ν).resolve text cache).result ≠ .ok (some node)) := by
  refine ⟨?_, ?_, ?_⟩
  · intro route node hplain hnode
    obtain ⟨p, hread, rfl⟩ := hplain.read_text (by rw [hnode]; rfl)
    exact ⟨p, hread, rfl, (resolve_eq_some_iff _ _ _ _).2 ⟨p, hread, hnode⟩⟩
  · intro text node hresolve
    obtain ⟨p, hread, hnode⟩ := (resolve_eq_some_iff _ _ _ _).1 hresolve
    refine ⟨p, hread, Route.addresses_of_read hread hnode, ?_⟩
    rintro other found ⟨hplain, hfound, hwritten⟩
    obtain ⟨q, hq, rfl⟩ := hplain.read_text (by rw [hfound]; rfl)
    rw [hwritten, ← Path.text_of_read hread, Path.read_text_of_read hread] at hq
    rw [Except.ok.inj hq]
  · rintro route ⟨hop, hmem, hop_not⟩ text
    have hroute : ∀ p, Path.read text = .ok p → p.route ≠ route := by
      rintro p hread rfl
      exact hop_not ((Path.isPlain_route_of_read hread).hops hop hmem)
    refine ⟨hroute, ?_⟩
    intro node honly hresolve
    obtain ⟨p, hread, hnode⟩ := (resolve_eq_some_iff _ _ _ _).1 hresolve
    exact hroute p hread (honly p.route hnode)

/-- A position with superfluous zeros leads where its route leads, and nothing leads to the node
under the empty key. -/
theorem resolve_iff_route_nested :
    (((⟨some (.object [("a", .array [.null, .object [("b", .string "x")]])])⟩ :
        Query Number).resolve "a[01].b" none).result = .ok (some (.string "x")) ∧
      ∃ p, Path.read "a[01].b" = .ok p ∧ Route.Addresses p.route
        (.object [("a", .array [.null, .object [("b", .string "x")]])] : Tree Number)
        (.string "x") "a[1].b") ∧
    ∀ text, ((⟨some (.object [("", .boolean true)])⟩ : Query Number).resolve text none).result ≠
      .ok (some (.boolean true)) := by
  have hnested := resolve_iff_route
    [("a", (.array [.null, .object [("b", .string "x")]] : Tree Number))] none
  have hempty := resolve_iff_route [("", (.boolean true : Tree Number))] none
  refine ⟨⟨rfl, ?_⟩, ?_⟩
  · obtain ⟨p, hread, haddress, -⟩ := hnested.2.1 "a[01].b" (.string "x") rfl
    exact ⟨p, hread, haddress⟩
  · intro text
    refine (hempty.2.2 [.key ""] ⟨.key "", by simp, by decide⟩ text).2 (.boolean true) ?_
    intro other hother
    cases other with
    | nil => simp [Tree.follow?] at hother
    | cons hop rest =>
      obtain ⟨name, rfl⟩ := Tree.exists_key_of_follow? (by rw [hother]; rfl)
      obtain ⟨child, hchild, hrest⟩ := Option.bind_eq_some_iff.1 hother
      obtain ⟨rfl, rfl⟩ : name = "" ∧ child = .boolean true := by
        simp only [Tree.hop?, Tree.property?, List.lookup_cons, List.lookup_nil] at hchild
        split at hchild
        · next hname => exact ⟨eq_of_beq hname, (Option.some.inj hchild).symm⟩
        · contradiction
      cases rest with
      | nil => rfl
      | cons next rest =>
        cases next <;>
          simp [Tree.follow?, Tree.hop?, Tree.property?, Tree.element?, Tree.elements?] at hrest

end Query

end TreePath
