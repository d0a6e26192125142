import TacticNotation.Notation
import TacticNotation.Proofs.Grammar.Reader
import TacticNotation.Proofs.Tree.Spelling

/-!
# The shape of trees that are read

The reader makes no sequence nodes, and the branches of an alternative are at
least two and are atoms, holes and groups: never alternatives again, and never
pipes.  `Derives.forall_nodes` is the induction that such facts come from.
-/

namespace TacticNotation
namespace Node

/-- Whether a node is an atom, a hole or a group. -/
def isPrimary : Node → Bool
  | .atomic text => !isPipes text
  | .hole _ | .repetition .. | .curlies _ => true
  | .sequence _ | .alternative _ | .whitespace => false

mutual
/-- Whether a node is no sequence and has none below it. -/
def isSequenceFree : Node → Bool
  | .sequence _ => false
  | .repetition _ _ body => isSequenceFreeAll body
  | .curlies body => isSequenceFreeAll body
  | .alternative branches => isSequenceFreeAll branches
  | .atomic _ | .hole _ | .whitespace => true
/-- Whether there is no sequence in a list of nodes. -/
def isSequenceFreeAll : List Node → Bool
  | [] => true
  | n :: ns => isSequenceFree n && isSequenceFreeAll ns
end

mutual
/-- Whether every alternative in a node has two branches at least, each of them
an atom, a hole or a group. -/
def isFlat : Node → Bool
  | .sequence children => isFlatAll children
  | .repetition _ _ body => isFlatAll body
  | .curlies body => isFlatAll body
  | .alternative branches =>
      decide (2 ≤ branches.length) && branches.all isPrimary && isFlatAll branches
  | .atomic _ | .hole _ | .whitespace => true
/-- Whether every alternative in a list of nodes has two branches at least, each
of them an atom, a hole or a group. -/
def isFlatAll : List Node → Bool
  | [] => true
  | n :: ns => isFlat n && isFlatAll ns
end

theorem isSequenceFreeAll_iff {ns : List Node} :
    isSequenceFreeAll ns = true ↔ ∀ n ∈ ns, n.isSequenceFree = true := by
  induction ns with
  | nil => simp [isSequenceFreeAll]
  | cons n ns ih => simp [isSequenceFreeAll, ih]

theorem isFlatAll_iff {ns : List Node} :
    isFlatAll ns = true ↔ ∀ n ∈ ns, n.isFlat = true := by
  induction ns with
  | nil => simp [isFlatAll]
  | cons n ns ih => simp [isFlatAll, ih]

end Node

namespace Grammar

open Node (isPrimary)

theorem mem_gapNodes {present : Bool} {n : Node} (h : n ∈ gapNodes present) :
    n = .whitespace := by
  cases present with
  | true => exact List.mem_singleton.1 h
  | false => cases h

/-- Branches are atoms, holes and groups. -/
theorem Derives.isPrimary {part : Part} {taken rest : List Token} {nodes : List Node}
    (h : Derives part taken nodes rest) (hvalid : ∀ token ∈ taken, token.Valid)
    (hpart : part = .primary ∨ part = .branches) : ∀ n ∈ nodes, n.isPrimary = true := by
  induction h with
  | atom text =>
      have hpipes := Node.isPipes_of_valid (hvalid _ (List.mem_singleton_self _))
      simp [Node.isPrimary, hpipes]
  | hole | repetition | curlies => simp [Node.isPrimary]
  | noBranch => simp
  | branch _ _ ihBranch ihMore =>
      obtain ⟨-, hvalid⟩ := List.forall_mem_cons.1 hvalid
      obtain ⟨hvalidBranch, hvalidMore⟩ := List.forall_mem_append.1 hvalid
      refine List.forall_mem_cons.2 ⟨?_, ihMore hvalidMore (Or.inr rfl)⟩
      exact ihBranch hvalidBranch (Or.inl rfl) _ (List.mem_singleton_self _)
  | _ => rcases hpart with hpart | hpart <;> cases hpart

/-- To show something of every node that is derived, show it of the kinds of
node that the grammar makes. -/
theorem Derives.forall_nodes {motive : Node → Prop}
    (atomic : ∀ text, motive (.atomic text)) (hole : ∀ id, motive (.hole id))
    (whitespace : motive .whitespace)
    (repetition : ∀ marker separator body, (∀ n ∈ body, motive n) →
      motive (.repetition marker separator body))
    (curlies : ∀ body, (∀ n ∈ body, motive n) → motive (.curlies body))
    (alternative : ∀ branches, 2 ≤ branches.length → (∀ n ∈ branches, n.isPrimary = true) →
      (∀ n ∈ branches, motive n) → motive (.alternative branches))
    {part : Part} {taken rest : List Token} {nodes : List Node}
    (h : Derives part taken nodes rest) (hvalid : ∀ token ∈ taken, token.Valid) :
    ∀ n ∈ nodes, motive n := by
  have hgap (present : Bool) : ∀ n ∈ gapNodes present, motive n := by
    intro n hn
    rw [mem_gapNodes hn]
    exact whitespace
  induction h with
  | atom text => simpa using atomic text
  | hole id => simpa using hole id
  | repetition marker front back hsep hbody ih =>
      simp only [List.forall_mem_cons, List.forall_mem_append] at hvalid
      simpa using repetition _ _ _ (ih hvalid.2.2.2.1)
  | curlies front back hbody ih =>
      simp only [List.forall_mem_cons, List.forall_mem_append] at hvalid
      have hinside := List.forall_mem_append.2
        ⟨hgap front, List.forall_mem_append.2 ⟨ih hvalid.2.2.1, hgap back⟩⟩
      simpa using curlies _ hinside
  | noBranch => simp
  | branch _ _ ihBranch ihMore =>
      simp only [List.forall_mem_cons, List.forall_mem_append] at hvalid
      have hbranch := ihBranch hvalid.2.1
      exact List.forall_mem_cons.2 ⟨hbranch _ (List.mem_singleton_self _), ihMore hvalid.2.2⟩
  | single _ _ ih => exact ih hvalid
  | @alternative taken more rest node other nodes hfirst hmore ihFirst ihMore =>
      obtain ⟨hvalidFirst, hvalidMore⟩ := List.forall_mem_append.1 hvalid
      have hprimaryFirst := hfirst.isPrimary hvalidFirst (Or.inl rfl)
      have hprimaryMore := hmore.isPrimary hvalidMore (Or.inr rfl)
      have hlength : 2 ≤ (node :: other :: nodes).length := by simp
      rw [List.forall_mem_singleton]
      refine alternative _ hlength ?_ ?_
      · exact List.forall_mem_cons.2 ⟨hprimaryFirst _ (List.mem_singleton_self _), hprimaryMore⟩
      · exact List.forall_mem_cons.2
          ⟨ihFirst hvalidFirst _ (List.mem_singleton_self _), ihMore hvalidMore⟩
  | pipes count => simpa using atomic _
  | noMore => simp
  | more gap _ _ ihUnit ihMore =>
      simp only [List.forall_mem_append] at hvalid
      have hunit := ihUnit hvalid.2.1
      refine List.forall_mem_append.2 ⟨hgap gap, List.forall_mem_cons.2 ⟨?_, ihMore hvalid.2.2⟩⟩
      exact hunit _ (List.mem_singleton_self _)
  | blocks _ _ ihUnit ihMore =>
      obtain ⟨hvalidUnit, hvalidMore⟩ := List.forall_mem_append.1 hvalid
      exact List.forall_mem_cons.2
        ⟨ihUnit hvalidUnit _ (List.mem_singleton_self _), ihMore hvalidMore⟩

variable {part : Part} {taken rest : List Token} {nodes : List Node}

theorem Derives.isSequenceFreeAll (h : Derives part taken nodes rest)
    (hvalid : ∀ token ∈ taken, token.Valid) : Node.isSequenceFreeAll nodes = true := by
  rw [Node.isSequenceFreeAll_iff]
  refine h.forall_nodes ?_ ?_ ?_ ?_ ?_ ?_ hvalid
  · exact fun _ => rfl
  · exact fun _ => rfl
  · rfl
  · exact fun _ _ _ hbody => Node.isSequenceFreeAll_iff.2 hbody
  · exact fun _ hbody => Node.isSequenceFreeAll_iff.2 hbody
  · exact fun _ _ _ hbranches => Node.isSequenceFreeAll_iff.2 hbranches

theorem Derives.isFlatAll (h : Derives part taken nodes rest)
    (hvalid : ∀ token ∈ taken, token.Valid) : Node.isFlatAll nodes = true := by
  rw [Node.isFlatAll_iff]
  refine h.forall_nodes ?_ ?_ ?_ ?_ ?_ ?_ hvalid
  · exact fun _ => rfl
  · exact fun _ => rfl
  · rfl
  · exact fun _ _ _ hbody => Node.isFlatAll_iff.2 hbody
  · exact fun _ hbody => Node.isFlatAll_iff.2 hbody
  · intro branches hlength hprimary hbranches
    simp [Node.isFlat, hlength, Node.isFlatAll_iff.2 hbranches, List.all_eq_true.2 hprimary]

end Grammar

/-- The tokens of a text that is read as a tree, less the gaps at its two ends,
are derived. -/
theorem Grammar.derives_of_parseTree {source : String} {root : List Node}
    (h : parseTree source = .ok root) :
    ∃ body back, Derives .blocks body root (gapTokens back) ∧ Apart body := by
  obtain ⟨lexemes, hlex, front, body, back, htokens, hbody⟩ := parseTree_eq_ok_iff.1 h
  have happart := apart_of_lex hlex
  rw [htokens] at happart
  exact ⟨body, back, hbody, happart.right.left⟩

/-- The tree of a notation is derived, with any table of shorthands. -/
theorem Grammar.derives_of_parse {table : ShorthandTable} {source : String} {form : Notation}
    (h : Notation.parse table source = .ok form) :
    ∃ body back, Derives .blocks body form.root (gapTokens back) ∧ Apart body := by
  obtain ⟨root, hroot, hform⟩ := bind_eq_ok_iff.1 h
  cases hform
  exact derives_of_parseTree hroot

theorem isSequenceFreeAll_of_parse {table : ShorthandTable} {source : String} {form : Notation}
    (h : Notation.parse table source = .ok form) : Node.isSequenceFreeAll form.root = true := by
  obtain ⟨body, back, hbody, happart⟩ := Grammar.derives_of_parse h
  exact hbody.isSequenceFreeAll happart.valid

end TacticNotation
