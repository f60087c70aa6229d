import Mathlib.Data.List.Nodup
import Mathlib.Logic.Function.Basic

/-!
# Singly linked lists in memory

Nodes have addresses in `ι`, `next i` is the pointer stored in the node at `i`, and `none` is the
null pointer. `Leads` says which nodes a walk from a pointer visits before it arrives at another
pointer; a list is well formed when its walk arrives at `none`.

The loops `searchFrom`, `prevLink` and `walk` take fuel and are `none` where it runs out. Their
rules say what they compute on a well-formed list with fuel for more steps than the list has nodes.
-/

namespace OreOS.Machine

variable {ι σ : Type} {next next' : ι → Option ι} {p q r : Option ι} {i : ι} {is js : List ι}

/-- Following `next` from `p` visits the nodes `is` and arrives at `q`. -/
def Leads (next : ι → Option ι) : Option ι → List ι → Option ι → Prop
  | p, [], q => p = q
  | p, i :: is, q => p = some i ∧ Leads next (next i) is q

/-- Following `next` from `p` visits the nodes `is` and ends. -/
abbrev Chain (next : ι → Option ι) (p : Option ι) (is : List ι) : Prop := Leads next p is none

@[simp] theorem leads_nil : Leads next p [] q ↔ p = q := Iff.rfl

@[simp] theorem leads_cons : Leads next p (i :: is) q ↔ p = some i ∧ Leads next (next i) is q :=
  Iff.rfl

theorem leads_append : Leads next p (is ++ js) r ↔ ∃ q, Leads next p is q ∧ Leads next q js r := by
  induction is generalizing p with
  | nil => simp
  | cons i is ih => simp only [List.cons_append, leads_cons, ih, and_assoc, exists_and_left]

/-- A walk depends on the pointers of the nodes it visits only. -/
theorem Leads.congr (h : Leads next p is q) (heq : ∀ i ∈ is, next' i = next i) :
    Leads next' p is q := by
  induction is generalizing p with
  | nil => exact h
  | cons i is ih =>
    obtain ⟨rfl, hrest⟩ := h
    refine ⟨rfl, ?_⟩
    rw [heq i (by simp)]
    exact ih hrest fun j hj => heq j (by simp [hj])

/-- A list has one walk: it begins with every walk that starts where it does. -/
theorem Chain.split (h : Chain next p js) (hpre : Leads next p is q) :
    ∃ ks, js = is ++ ks ∧ Chain next q ks := by
  induction is generalizing p js with
  | nil =>
    cases hpre
    exact ⟨js, rfl, h⟩
  | cons i is ih =>
    obtain ⟨rfl, hrest⟩ := hpre
    cases js with
    | nil => simp [Chain] at h
    | cons j js =>
      obtain ⟨hj, htail⟩ := h
      cases hj
      obtain ⟨ks, rfl, hks⟩ := ih htail hrest
      exact ⟨ks, rfl, hks⟩

theorem Chain.unique (h : Chain next p is) (h' : Chain next p js) : is = js := by
  obtain ⟨ks, rfl, hks⟩ := h'.split h
  cases ks with
  | nil => simp
  | cons k ks => exact absurd hks.1 (by simp)

/-- A walk that ends comes to no node twice. -/
theorem Chain.nodup (h : Chain next p is) : is.Nodup := by
  induction is generalizing p with
  | nil => exact List.nodup_nil
  | cons i is ih =>
    obtain ⟨rfl, htail⟩ := h
    refine List.nodup_cons.mpr ⟨fun hmem => ?_, ih htail⟩
    -- The rest of the walk would be the walk again, and shorter.
    obtain ⟨as, bs, rfl⟩ := List.append_of_mem hmem
    obtain ⟨q, -, hq⟩ := leads_append.mp htail
    obtain ⟨rfl, hbs⟩ := hq
    have hlen := congrArg List.length (Chain.unique hbs htail)
    simp at hlen
    omega

/-! ## Following a list -/

/-- The first `n` nodes of the walk from a pointer. -/
def follow (next : ι → Option ι) : Nat → Option ι → List ι
  | 0, _ => []
  | _ + 1, none => []
  | n + 1, some i => i :: follow next n (next i)

theorem follow_of_chain (h : Chain next p is) {n : Nat} (hn : is.length ≤ n) :
    follow next n p = is := by
  induction is generalizing p n with
  | nil =>
    cases h
    cases n <;> rfl
  | cons i is ih =>
    obtain ⟨rfl, htail⟩ := h
    cases n with
    | zero => simp at hn
    | succ n =>
      simp only [List.length_cons, Nat.add_le_add_iff_right] at hn
      rw [follow, ih htail hn]

/-- The loop that looks for a node with `found`. -/
def searchFrom (next : ι → Option ι) (found : ι → Bool) : Nat → Option ι → Option (Option ι)
  | 0, _ => none
  | _ + 1, none => some none
  | fuel + 1, some i => if found i then some (some i) else searchFrom next found fuel (next i)

theorem searchFrom_of_chain (found : ι → Bool) (h : Chain next p is) {fuel : Nat}
    (hf : is.length < fuel) : searchFrom next found fuel p = some (is.find? found) := by
  induction is generalizing p fuel with
  | nil =>
    cases h
    cases fuel with
    | zero => simp at hf
    | succ fuel => rfl
  | cons i is ih =>
    obtain ⟨rfl, htail⟩ := h
    cases fuel with
    | zero => simp at hf
    | succ fuel =>
      simp only [List.length_cons, Nat.add_lt_add_iff_right] at hf
      rw [searchFrom, ih htail hf, List.find?_cons]
      cases found i <;> rfl

/-- The loop that visits every node; a visit may change the state that the pointers are in. -/
def walk (next : σ → ι → Option ι) (visit : σ → ι → σ) : Nat → Option ι → σ → Option σ
  | 0, _, _ => none
  | _ + 1, none, s => some s
  | fuel + 1, some i, s => walk next visit fuel (next (visit s i) i) (visit s i)

/-- Visits that leave the pointers alone are made once for each node, in order. -/
theorem walk_of_chain {next : σ → ι → Option ι} {visit : σ → ι → σ}
    (hkeep : ∀ s i, next (visit s i) = next s) {s : σ} (h : Chain (next s) p is) {fuel : Nat}
    (hf : is.length < fuel) : walk next visit fuel p s = some (is.foldl visit s) := by
  induction is generalizing p fuel s with
  | nil =>
    cases h
    cases fuel with
    | zero => simp at hf
    | succ fuel => rfl
  | cons i is ih =>
    obtain ⟨rfl, htail⟩ := h
    cases fuel with
    | zero => simp at hf
    | succ fuel =>
      simp only [List.length_cons, Nat.add_lt_add_iff_right] at hf
      rw [walk, hkeep]
      exact ih (by rwa [hkeep]) hf

/-! ## Linking and unlinking -/

/-- A place that holds a pointer: the head of the list or the pointer of a node. -/
inductive Link (ι : Type) where
  | head
  | next (i : ι)
  deriving DecidableEq, Repr

/-- The pointer at a link of the list with the given head. -/
def Link.load (head : Option ι) (next : ι → Option ι) : Link ι → Option ι
  | .head => head
  | .next i => next i

/-- The loop that looks for the link that points at `target`, starting at one. A null pointer on the
way is dereferenced, which is undefined. -/
def prevLink [DecidableEq ι] (head : Option ι) (next : ι → Option ι) (target : ι) :
    Nat → Link ι → Option (Link ι)
  | 0, _ => none
  | fuel + 1, l =>
      if l.load head next = some target then some l
      else (l.load head next).bind fun i => prevLink head next target fuel (.next i)

/-- The link through which a walk from `l` over `is` arrives. -/
def lastLink (l : Link ι) : List ι → Link ι
  | [] => l
  | i :: is => lastLink (.next i) is

theorem prevLink_of_leads [DecidableEq ι] {head : Option ι} {l : Link ι}
    (h : Leads next (l.load head next) is (some i)) (hi : i ∉ is) {fuel : Nat}
    (hf : is.length < fuel) :
    prevLink head next i fuel l = some (lastLink l is) := by
  induction is generalizing l fuel with
  | nil =>
    cases fuel with
    | zero => simp at hf
    | succ fuel => rw [prevLink, if_pos (leads_nil.mp h), lastLink]
  | cons j is ih =>
    obtain ⟨hj, htail⟩ := h
    cases fuel with
    | zero => simp at hf
    | succ fuel =>
      simp only [List.length_cons, Nat.add_lt_add_iff_right] at hf
      have hne : j ≠ i := fun h => hi (by simp [h])
      rw [prevLink, hj, if_neg (by simpa using hne), Option.bind_some, lastLink]
      exact ih (l := .next j) htail (fun hmem => hi (by simp [hmem])) hf

theorem lastLink_append {l : Link ι} : lastLink l (is ++ [i]) = .next i := by
  induction is generalizing l with
  | nil => rfl
  | cons j is ih => exact ih

theorem update_eq_on [DecidableEq ι] {α : Type} {f : ι → α} {a : α} (hi : i ∉ is) :
    ∀ j ∈ is, Function.update f i a j = f j := by
  intro j hj
  have hne : j ≠ i := fun h => hi (h ▸ hj)
  exact Function.update_of_ne hne _ _

/-- A new node in front of the list. -/
theorem Chain.push [DecidableEq ι] (h : Chain next p is) (hi : i ∉ is) :
    Chain (Function.update next i p) (some i) (i :: is) := by
  refine ⟨rfl, ?_⟩
  rw [Function.update_self]
  exact h.congr (update_eq_on hi)

/-- The head of the list after the store of `q` at a link. -/
def Link.storeHead (head q : Option ι) : Link ι → Option ι
  | .head => q
  | .next _ => head

/-- The pointers of the nodes after the store of `q` at a link. -/
def Link.storeNext [DecidableEq ι] (next : ι → Option ι) (q : Option ι) : Link ι → ι → Option ι
  | .head => next
  | .next i => Function.update next i q

/-- The node that the walk comes to after `is` is unlinked. -/
theorem Chain.unlink [DecidableEq ι] {head : Option ι} (h : Chain next head (is ++ i :: js)) :
    Chain ((lastLink .head is).storeNext next (next i))
    ((lastLink .head is).storeHead head (next i))
      (is ++ js) := by
  have hnodup := h.nodup
  obtain ⟨q, his, rfl, hjs⟩ := leads_append.mp h
  rcases List.eq_nil_or_concat is with rfl | ⟨as, j, rfl⟩
  · exact hjs
  · rw [List.concat_eq_append] at *
    rw [lastLink_append, Link.storeNext, Link.storeHead]
    obtain ⟨q, has, rfl, hj⟩ := leads_append.mp his
    obtain ⟨hj_as, hj_js⟩ : j ∉ as ∧ j ∉ js := by
      simp only [List.append_assoc, List.singleton_append, List.nodup_append, List.nodup_cons]
        at hnodup
      exact ⟨fun hmem => hnodup.2.2 j hmem j (by simp) rfl,
        fun hmem => hnodup.2.1.1 (by simp [hmem])⟩
    refine leads_append.mpr ⟨next i, leads_append.mpr
      ⟨some j, has.congr (update_eq_on hj_as), rfl, ?_⟩, hjs.congr (update_eq_on hj_js)⟩
    exact Function.update_self j (next i) next

/-- A node pushed again that is in the list already: the walk comes back to it and does not end. -/
theorem Chain.not_push [DecidableEq ι] (h : Chain next p is) (hi : i ∈ is) :
    ¬ Chain (Function.update next i p) (some i) js := by
  intro hloop
  obtain ⟨as, bs, rfl, has⟩ := List.eq_append_cons_of_mem hi
  obtain ⟨q, has', hq⟩ := leads_append.mp h
  obtain ⟨rfl, -⟩ := hq
  have hpre : Leads (Function.update next i p) (some i) (i :: as) (some i) := by
    refine ⟨rfl, ?_⟩
    rw [Function.update_self]
    exact has'.congr (update_eq_on has)
  obtain ⟨ks, rfl, hks⟩ := hloop.split hpre
  have hlen := congrArg List.length (hks.unique hloop)
  simp at hlen
  omega

end OreOS.Machine
