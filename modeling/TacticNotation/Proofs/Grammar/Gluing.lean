import TacticNotation.Proofs.Tree.Shape

/-!
# What pipes and separators are

Whether a token belongs to the separator of a repetition, stands between two
branches or is literal text can be told from the tokens next to it.  `useOf`
does so, and it knows nothing of groups but where a brace closes.  `Node.usesAll`
lists what the tokens of a tree are for, as the tree has it.  On every notation
that is read the two agree.

Gaps are no part of either list; they matter only because what is on either side
of one is not glued.
-/

namespace TacticNotation

/-! ## Uses -/

/-- What a token is for. -/
inductive Use where
  /-- It stands for itself. -/
  | plain
  /-- It opens a repetition with this separator, or with none. -/
  | opening (separator : Option String)
  /-- It is the separator `text`, or a pipe of it. -/
  | separator (text : String)
  /-- It stands between two branches of an alternative, with this number of them
  before it. -/
  | bar (number : Nat)
  /-- It is a pipe of the literal text `text`. -/
  | literal (text : String)
  deriving DecidableEq, Repr

/-- A token and what it is for. -/
abbrev Entry := Token × Use

namespace Node

/-- The entries of a separator, if there is one. -/
def separatorUses : Option String → List Entry
  | none => []
  | some text => (literalTokens text).map fun token => (token, .separator text)

/-- The entries of a literal text. -/
def literalUses (text : String) : List Entry :=
  if isPipes text then (literalTokens text).map fun token => (token, .literal text)
  else [(.atom text, .plain)]

mutual
/-- The tokens of a node, less its gaps, with what the node has them for. -/
def uses : Node → List Entry
  | .sequence children => usesAll children
  | .repetition marker separator body =>
      (.repeatOpen marker, .opening separator) ::
        (separatorUses separator ++ (usesAll body ++ [(.braceClose, .plain)]))
  | .curlies body => (.braceOpen, .plain) :: (usesAll body ++ [(.braceClose, .plain)])
  | .alternative [] => []
  | .alternative (branch :: branches) => uses branch ++ usesBranches 1 branches
  | .atomic text => literalUses text
  | .hole id => [(.hole id, .plain)]
  | .whitespace => []
/-- The tokens of some nodes, less their gaps, with what the nodes have them
for. -/
def usesAll : List Node → List Entry
  | [] => []
  | n :: ns => uses n ++ usesAll ns
/-- The tokens of the branches of an alternative after `number` of them, each
branch after its bar. -/
def usesBranches (number : Nat) : List Node → List Entry
  | [] => []
  | n :: ns => (.pipe, .bar number) :: (uses n ++ usesBranches (number + 1) ns)
end

theorem usesAll_append (front back : List Node) :
    usesAll (front ++ back) = usesAll front ++ usesAll back := by
  induction front with
  | nil => rfl
  | cons n front ih => rw [List.cons_append, usesAll, usesAll, ih, List.append_assoc]

theorem usesAll_singleton (n : Node) : usesAll [n] = uses n := by
  rw [usesAll, usesAll, List.append_nil]

theorem usesAll_gapNodes (present : Bool) : usesAll (Grammar.gapNodes present) = [] := by
  cases present with
  | false => rfl
  | true => rfl

end Node

namespace Grammar

/-! ## Uses by position

The entries before a token come last first. -/

/-- Whether a token directly after these would belong to a separator: it is an
atom or a pipe glued to the opening of a repetition, or a pipe glued to pipes of
a separator. -/
def joinsSeparator : List Entry → Token → Bool
  | (.repeatOpen _, _) :: _, .atom _ | (.repeatOpen _, _) :: _, .pipe => true
  | (.pipe, .separator _) :: _, .pipe => true
  | _, _ => false

/-- Whether a primary ends here: a hole, a group or an atom that is no
separator. -/
def endsPrimary : List Entry → Bool
  | (.hole _, _) :: _ | (.braceClose, _) :: _ | (.atom _, .plain) :: _ => true
  | _ => false

/-- The entries before the group that a closing brace ends after these, with
`depth` groups inside it to be passed. -/
def beforeGroup : (depth : Nat) → List Entry → List Entry
  | _, [] => []
  | depth, (.braceClose, _) :: before => beforeGroup (depth + 1) before
  | 0, (.braceOpen, _) :: before | 0, (.repeatOpen _, _) :: before => before
  | depth + 1, (.braceOpen, _) :: before => beforeGroup depth before
  | depth + 1, (.repeatOpen _, _) :: before => beforeGroup depth before
  | depth, _ :: before => beforeGroup depth before

/-- The entries before the primary that ends here. -/
def beforePrimary : List Entry → List Entry
  | [] => []
  | (.braceClose, _) :: before => beforeGroup 0 before
  | _ :: before => before

/-- The number of the bar in front of the primary that ends here, or zero if
there is none. -/
def lastBar (before : List Entry) : Nat :=
  match beforePrimary before with
  | (.pipe, .bar number) :: _ => number
  | _ => 0

/-- The number of pipes that come next. -/
def pipesAhead (after : List Token) : Nat := (after.takeWhile (· = .pipe)).length

/-- The text of the longest run of pipes around a pipe. -/
def runText (before : List Entry) (after : List Token) : String :=
  pipeText ((before.takeWhile (·.1 = .pipe)).length + 1 + pipesAhead after)

/-- The separator that is glued to the opening of a repetition. -/
def separatorAt : List Token → Option String
  | .atom text :: _ => some text
  | .pipe :: after => some (pipeText (pipesAhead after + 1))
  | _ => none

/-- What a token is for, by what is next to it. -/
def useOf (before : List Entry) (token : Token) (after : List Token) : Use :=
  match token with
  | .repeatOpen _ => .opening (separatorAt after)
  | .atom text => if joinsSeparator before (.atom text) then .separator text else .plain
  | .pipe =>
      if joinsSeparator before .pipe then .separator (runText before after)
      -- Glued to a primary on both sides; the bars of a chain are numbered.
      else if endsPrimary before && after.head?.any Token.startsPrimary then
        .bar (lastBar before + 1)
      else .literal (runText before after)
  | .braceOpen | .braceClose | .hole _ | .gap => .plain

/-- The tokens `taken`, which stand before `rest`, with what they are for. -/
def usesFrom (before : List Entry) : (taken rest : List Token) → List Entry
  | [], _ => []
  | token :: taken, rest =>
      (token, useOf before token (taken ++ rest)) ::
        usesFrom ((token, useOf before token (taken ++ rest)) :: before) taken rest

/-- The entries before `rest` once the tokens `taken` are passed. -/
def passed (before : List Entry) (taken rest : List Token) : List Entry :=
  (usesFrom before taken rest).reverse ++ before

/-- The entries that are no gaps. -/
def solid (entries : List Entry) : List Entry :=
  entries.filter (·.1 ≠ .gap)

/-! ## Passing tokens -/

section
variable (before : List Entry)

theorem usesFrom_append (front back rest : List Token) :
    usesFrom before (front ++ back) rest =
      usesFrom before front (back ++ rest) ++
        usesFrom (passed before front (back ++ rest)) back rest := by
  induction front generalizing before with
  | nil => rfl
  | cons token front ih =>
      simp only [List.cons_append, usesFrom, ih, List.append_assoc, passed, List.reverse_cons,
        List.nil_append]

theorem passed_append (front back rest : List Token) :
    passed before (front ++ back) rest = passed (passed before front (back ++ rest)) back rest := by
  rw [passed, usesFrom_append, List.reverse_append, List.append_assoc]
  rfl

theorem map_fst_usesFrom (taken rest : List Token) :
    (usesFrom before taken rest).map Prod.fst = taken := by
  induction taken generalizing before with
  | nil => rfl
  | cons token taken ih => rw [usesFrom, List.map_cons, ih]

theorem solid_cons {entry : Entry} (h : entry.1 ≠ .gap) (entries : List Entry) :
    solid (entry :: entries) = entry :: solid entries :=
  List.filter_cons_of_pos (by simpa using h)

theorem solid_append (front back : List Entry) :
    solid (front ++ back) = solid front ++ solid back :=
  List.filter_append front back

end

/-! ## Groups are passed as one -/

/-- Going back over these tokens leaves no group and enters none. -/
def Balanced (tokens : List Token) : Prop :=
  ∀ (depth : Nat) (entries before : List Entry), entries.map Prod.fst = tokens →
    beforeGroup depth (entries.reverse ++ before) = beforeGroup depth before

namespace Balanced

theorem nil : Balanced [] := by
  intro depth entries before h
  rw [List.map_eq_nil_iff] at h
  rw [h]
  rfl

theorem append {front back : List Token} (hfront : Balanced front) (hback : Balanced back) :
    Balanced (front ++ back) := by
  intro depth entries before h
  obtain ⟨first, last, rfl, hfirst, hlast⟩ := List.map_eq_append_iff.1 h
  rw [List.reverse_append, List.append_assoc, hback depth last _ hlast, hfront depth first _ hfirst]

/-- A token that is no brace changes no depth. -/
theorem single {token : Token} (hclose : token ≠ .braceClose) (hopen : token ≠ .braceOpen)
    (hrepeat : ∀ marker, token ≠ .repeatOpen marker) : Balanced [token] := by
  intro depth entries before h
  obtain ⟨⟨token, use⟩, rfl, rfl⟩ := List.map_eq_singleton_iff.1 h
  cases token with
  | braceClose => exact absurd rfl hclose
  | braceOpen => exact absurd rfl hopen
  | repeatOpen marker => exact absurd rfl (hrepeat marker)
  | _ => cases depth <;> rfl

/-- Going back from a closing brace leads to its opening. -/
theorem group {opener : Token} {inside : List Token} (hinside : Balanced inside)
    (hopener : opener = .braceOpen ∨ ∃ marker, opener = .repeatOpen marker) :
    Balanced (opener :: (inside ++ [.braceClose])) := by
  intro depth entries before h
  obtain ⟨⟨opener, use⟩, more, rfl, rfl, hmore⟩ := List.map_eq_cons_iff.1 h
  obtain ⟨inner, last, rfl, hinner, hlast⟩ := List.map_eq_append_iff.1 hmore
  obtain ⟨⟨close, use'⟩, rfl, rfl⟩ := List.map_eq_singleton_iff.1 hlast
  have hback := hinside (depth + 1) inner ((opener, use) :: before) hinner
  simp only [List.reverse_cons, List.reverse_append, List.append_assoc, List.reverse_nil,
    List.nil_append, List.cons_append]
  rw [beforeGroup, hback]
  rcases hopener with rfl | ⟨marker, rfl⟩ <;> rfl

theorem gapTokens (present : Bool) : Balanced (gapTokens present) := by
  cases present with
  | false => exact nil
  | true => exact single (by simp) (by simp) (by simp)

theorem pipeTokens (count : Nat) : Balanced (pipeTokens count) := by
  induction count with
  | zero => exact nil
  | succ count ih =>
      have hpipe : Balanced [.pipe] := single (by simp) (by simp) (by simp)
      exact hpipe.append ih

end Balanced

theorem Separates.balanced {sep following : List Token} {separator : Option String}
    (h : Separates sep separator following) : Balanced sep := by
  cases h with
  | none => exact .nil
  | atom text => exact .single (by simp) (by simp) (by simp)
  | pipes count => exact .pipeTokens (count + 1)

theorem Derives.balanced {part : Part} {taken rest : List Token} {nodes : List Node}
    (h : Derives part taken nodes rest) : Balanced taken := by
  induction h with
  | atom text => exact .single (by simp) (by simp) (by simp)
  | hole id => exact .single (by simp) (by simp) (by simp)
  | repetition marker front back hsep hbody ih =>
      have hinside := hsep.balanced.append
        ((Balanced.gapTokens front).append (ih.append (.gapTokens back)))
      have hgroup := hinside.group (Or.inr ⟨marker, rfl⟩)
      simpa only [List.append_assoc] using hgroup
  | curlies front back hbody ih =>
      have hinside := (Balanced.gapTokens front).append (ih.append (.gapTokens back))
      have hgroup := hinside.group (Or.inl rfl)
      simpa only [List.append_assoc] using hgroup
  | noBranch => exact .nil
  | branch _ _ ihBranch ihMore =>
      have hpipe : Balanced [.pipe] := .single (by simp) (by simp) (by simp)
      exact hpipe.append (ihBranch.append ihMore)
  | single _ _ ih => exact ih
  | alternative _ _ ihFirst ihMore => exact ihFirst.append ihMore
  | pipes count => exact .pipeTokens (count + 1)
  | noMore => exact .nil
  | more gap _ _ ihUnit ihMore => exact (Balanced.gapTokens gap).append (ihUnit.append ihMore)
  | blocks _ _ ihUnit ihMore => exact ihUnit.append ihMore

/-! ## Runs of pipes -/

theorem pipesAhead_append {rest : List Token} (h : rest.head? ≠ some .pipe) (count : Nat) :
    pipesAhead (pipeTokens count ++ rest) = count := by
  have hrest : rest.takeWhile (· = .pipe) = [] := by
    cases rest with
    | nil => rfl
    | cons token rest =>
        have htoken : token ≠ .pipe := by
          rintro rfl
          exact h rfl
        simp [htoken]
  have hpipes : ∀ token ∈ pipeTokens count, decide (token = .pipe) = true := by
    intro token htoken
    rw [List.eq_of_mem_replicate htoken]
    rfl
  rw [pipesAhead, List.takeWhile_append_of_pos hpipes, hrest, List.append_nil, pipeTokens,
    List.length_replicate]

/-- If the first pipe of a run is for something, and a pipe after such a pipe is
for the same, then all of them are. -/
theorem usesFrom_pipes {make : String → Use} {rest : List Token} (hrest : rest.head? ≠ some .pipe)
    (hnext : ∀ text before after, useOf ((.pipe, make text) :: before) .pipe after =
      make (runText ((.pipe, make text) :: before) after))
    (count : Nat) (before : List Entry)
    (hfirst : useOf before .pipe (pipeTokens count ++ rest) =
      make (runText before (pipeTokens count ++ rest))) :
    usesFrom before (pipeTokens (count + 1)) rest =
      List.replicate (count + 1)
        (.pipe, make (pipeText ((before.takeWhile (·.1 = .pipe)).length + 1 + count))) := by
  have hrun : runText before (pipeTokens count ++ rest) =
      pipeText ((before.takeWhile (·.1 = .pipe)).length + 1 + count) := by
    rw [runText, pipesAhead_append hrest]
  rw [hrun] at hfirst
  have hcons : usesFrom before (pipeTokens (count + 1)) rest =
      (.pipe, useOf before .pipe (pipeTokens count ++ rest)) ::
        usesFrom ((.pipe, useOf before .pipe (pipeTokens count ++ rest)) :: before)
          (pipeTokens count) rest := rfl
  rw [hcons, hfirst, List.replicate_succ]
  cases count with
  | zero => rfl
  | succ count =>
      have hmore := usesFrom_pipes hrest hnext count
        ((.pipe, make (pipeText ((before.takeWhile (·.1 = .pipe)).length + 1 + (count + 1)))) ::
          before) (hnext _ _ _)
      have hlength (text : String) :
          (((Token.pipe, make text) :: before).takeWhile (·.1 = .pipe)).length =
            (before.takeWhile (·.1 = .pipe)).length + 1 := by
        simp
      rw [hmore, hlength, Nat.add_right_comm _ 1 count]
      rfl

/-! ## After a primary -/

theorem eq_cons_of_endsPrimary {before : List Entry} (h : endsPrimary before = true) :
    ∃ token use more, before = (token, use) :: more ∧ token ≠ .pipe ∧
      ∀ next, joinsSeparator before next = false := by
  unfold endsPrimary at h
  split at h
  · exact ⟨_, _, _, rfl, by simp, fun _ => rfl⟩
  · exact ⟨_, _, _, rfl, by simp, fun _ => rfl⟩
  · exact ⟨_, _, _, rfl, by simp, fun _ => rfl⟩
  · cases h

/-! ## Where a unit can begin -/

/-- What stands before the first token of a unit. -/
structure Settled (before : List Entry) (following : List Token) : Prop where
  /-- No separator goes on. -/
  free : following.head?.any (joinsSeparator before) = false
  /-- A primary is not followed by a branch. -/
  unglued : endsPrimary before = true → gluedPipe following = false
  /-- No branch is due. -/
  noBar : ∀ number, before.head? ≠ some (.pipe, .bar number)
  /-- No run of pipes goes on. -/
  noRun : following.head? = some .pipe → before.takeWhile (·.1 = .pipe) = []

namespace Settled

variable {before : List Entry} {following : List Token}

theorem nil (following : List Token) : Settled [] following := by
  constructor
  · cases following <;> rfl
  · intro h
    cases h
  · intro number h
    cases h
  · exact fun _ => rfl

/-- After a token that is no pipe only the tokens next to each other matter. -/
theorem of_cons {token : Token} {use : Use} (htoken : token ≠ .pipe)
    (hfree : following.head?.any (joinsSeparator ((token, use) :: before)) = false)
    (hunglued : endsPrimary ((token, use) :: before) = true → gluedPipe following = false) :
    Settled ((token, use) :: before) following := by
  constructor
  · exact hfree
  · exact hunglued
  · rintro number ⟨⟩
    exact htoken rfl
  · exact fun _ => List.takeWhile_cons_of_neg (by simpa using htoken)

/-- After a gap everything begins anew. -/
theorem gap (before : List Entry) (following : List Token) :
    Settled ((.gap, .plain) :: before) following :=
  of_cons (by simp) (by cases following <;> rfl) (fun hends => by cases hends)

/-- After a brace that opens curlies everything begins anew. -/
theorem brace (before : List Entry) (following : List Token) :
    Settled ((.braceOpen, .plain) :: before) following :=
  of_cons (by simp) (by cases following <;> rfl) (fun hends => by cases hends)

/-- A gap that may stand here changes nothing. -/
theorem gapTokens {present : Bool} (h : Settled before (gapTokens present ++ following)) :
    Settled (passed before (Grammar.gapTokens present) following) following := by
  cases present with
  | false => exact h
  | true => exact gap before following

/-- After a primary, and all the branches after it, a unit can begin. -/
theorem of_endsPrimary (hends : endsPrimary before = true) (h : gluedPipe following = false) :
    Settled before following := by
  obtain ⟨token, use, more, rfl, htoken, hjoins⟩ := eq_cons_of_endsPrimary hends
  refine of_cons htoken ?_ fun _ => h
  cases following with
  | nil => rfl
  | cons next following => exact hjoins next

/-- After a whole run of pipes a unit can begin. -/
theorem pipes {use : Use} (huse : ∀ number, use ≠ .bar number)
    (h : following.head? ≠ some .pipe) (before : List Entry) :
    Settled ((.pipe, use) :: before) following := by
  constructor
  · cases following with
    | nil => rfl
    | cons next following =>
        cases next with
        | pipe => exact absurd rfl h
        | _ => cases use <;> rfl
  · intro hends
    cases hends
  · rintro number ⟨⟩
    exact huse number rfl
  · exact fun hpipe => absurd hpipe h

end Settled

/-! ## Separators -/

namespace Separates

variable {sep following : List Token} {separator : Option String}

/-- The separator is what stands directly after the opening. -/
theorem separatorAt_eq (h : Separates sep separator following) :
    separatorAt (sep ++ following) = separator := by
  cases h with
  | none hahead =>
      cases following with
      | nil => rfl
      | cons token following =>
          cases token with
          | atom text => cases hahead
          | pipe => cases hahead
          | _ => rfl
  | atom text => rfl
  | pipes count hhead =>
      have hcons : pipeTokens (count + 1) ++ following =
          .pipe :: (pipeTokens count ++ following) := rfl
      rw [hcons, separatorAt, pipesAhead_append hhead]

section
variable {marker : Marker} {use : Use} {before : List Entry}

theorem usesFrom_eq (h : Separates sep separator following)
    (hvalid : ∀ token ∈ sep, token.Valid) :
    usesFrom ((.repeatOpen marker, use) :: before) sep following =
      Node.separatorUses separator := by
  cases h with
  | none => rfl
  | atom text =>
      rw [Node.separatorUses, Node.literalTokens_of_valid (hvalid _ (List.mem_singleton_self _))]
      rfl
  | pipes count hhead =>
      rw [usesFrom_pipes hhead (fun _ _ _ => rfl) count _ rfl, Node.separatorUses,
        Node.literalTokens_pipeText, pipeTokens, List.map_replicate, Nat.add_comm count 1]
      rfl

/-- After the separator the body can begin. -/
theorem settled (h : Separates sep separator following) (hvalid : ∀ token ∈ sep, token.Valid) :
    Settled (passed ((.repeatOpen marker, use) :: before) sep following) following := by
  rw [passed, h.usesFrom_eq hvalid]
  cases h with
  | none hahead =>
      refine .of_cons (by simp) ?_ (fun hends => by cases hends)
      cases following with
      | nil => rfl
      | cons token following =>
          cases token with
          | atom text => cases hahead
          | pipe => cases hahead
          | _ => rfl
  | atom text =>
      rw [Node.separatorUses, Node.literalTokens_of_valid (hvalid _ (List.mem_singleton_self _))]
      exact .of_cons (by simp) (by cases following <;> rfl) (fun hends => by cases hends)
  | pipes count hhead =>
      rw [Node.separatorUses, Node.literalTokens_pipeText, pipeTokens, List.map_replicate,
        List.reverse_replicate]
      exact .pipes (by simp) hhead _

end
end Separates

/-! ## Pieces -/

/-- What is shown of a piece of a notation: its uses by position are those of
its nodes, and whatever comes next can be told from the entries up to here. -/
def Agrees : Part → (taken : List Token) → List Node → (rest : List Token) → Prop
  | .primary, taken, nodes, rest =>
      ∀ before, (taken ++ rest).head?.any (joinsSeparator before) = false →
        solid (usesFrom before taken rest) = Node.usesAll nodes ∧
          endsPrimary (passed before taken rest) = true ∧
          beforePrimary (passed before taken rest) = before
  | .branches, taken, nodes, rest =>
      ∀ before, endsPrimary before = true →
        solid (usesFrom before taken rest) = Node.usesBranches (lastBar before + 1) nodes ∧
          endsPrimary (passed before taken rest) = true ∧ gluedPipe rest = false
  | .unit, taken, nodes, rest | .more, taken, nodes, rest | .blocks, taken, nodes, rest =>
      ∀ before, Settled before (taken ++ rest) →
        solid (usesFrom before taken rest) = Node.usesAll nodes ∧
          Settled (passed before taken rest) rest

theorem passed_cons (before : List Entry) (token : Token) (taken rest : List Token) :
    passed before (token :: taken) rest =
      passed ((token, useOf before token (taken ++ rest)) :: before) taken rest :=
  passed_append before [token] taken rest

theorem solid_gapTokens (before : List Entry) (present : Bool) (rest : List Token) :
    solid (usesFrom before (gapTokens present) rest) = [] := by
  cases present with
  | false => rfl
  | true => rfl

theorem solid_pipes (count : Nat) (use : Use) :
    solid (List.replicate count (.pipe, use)) = List.replicate count (.pipe, use) := by
  refine List.filter_eq_self.2 ?_
  intro entry hentry
  rw [List.eq_of_mem_replicate hentry]
  rfl

theorem solid_separatorUses (separator : Option String) :
    solid (Node.separatorUses separator) = Node.separatorUses separator := by
  cases separator with
  | none => rfl
  | some text =>
      rw [Node.separatorUses, Node.literalTokens]
      split
      · rw [pipeTokens, List.map_replicate, solid_pipes]
      · rfl

/-- A group ends a primary, and what stands before it is found again. -/
theorem passed_group {opener : Token} {inside : List Token} (hinside : Balanced inside)
    (hopener : opener = .braceOpen ∨ ∃ marker, opener = .repeatOpen marker)
    (before : List Entry) (rest : List Token) :
    endsPrimary (passed before (opener :: (inside ++ [.braceClose])) rest) = true ∧
      beforePrimary (passed before (opener :: (inside ++ [.braceClose])) rest) = before := by
  rw [passed_cons, passed_append]
  generalize useOf before opener (inside ++ [.braceClose] ++ rest) = use
  refine ⟨rfl, ?_⟩
  have hback : beforeGroup 0 (passed ((opener, use) :: before) inside ([.braceClose] ++ rest)) =
      beforeGroup 0 ((opener, use) :: before) := hinside 0 _ _ (map_fst_usesFrom _ _ _)
  have hopening : beforeGroup 0 ((opener, use) :: before) = before := by
    rcases hopener with rfl | ⟨marker, rfl⟩ <;> rfl
  exact hback.trans hopening

/-- The pipes of a literal text, where a unit can begin. -/
theorem usesFrom_pipes_of_settled {before : List Entry} {rest : List Token} {count : Nat}
    (h : Settled before (pipeTokens (count + 1) ++ rest)) (hrest : rest.head? ≠ some .pipe) :
    usesFrom before (pipeTokens (count + 1)) rest =
      List.replicate (count + 1) (.pipe, .literal (pipeText (count + 1))) := by
  have hnext (text : String) (before : List Entry) (after : List Token) :
      useOf ((.pipe, .literal text) :: before) .pipe after =
        .literal (runText ((.pipe, .literal text) :: before) after) := rfl
  have hjoins : joinsSeparator before .pipe = false := h.free
  -- If a primary ends here, none follows the first pipe.
  have hglued : (endsPrimary before &&
      (pipeTokens count ++ rest).head?.any Token.startsPrimary) = false := by
    by_cases hends : endsPrimary before = true
    · have hpipe := h.unglued hends
      rw [hends, Bool.true_and]
      cases hmore : pipeTokens count ++ rest with
      | nil => rfl
      | cons token more =>
          have hcons : pipeTokens (count + 1) ++ rest = .pipe :: token :: more := by
            rw [← hmore]
            rfl
          rw [hcons] at hpipe
          exact hpipe
    · rw [Bool.eq_false_iff.2 hends, Bool.false_and]
  have hfirst : useOf before .pipe (pipeTokens count ++ rest) =
      .literal (runText before (pipeTokens count ++ rest)) := by
    rw [useOf, hjoins, hglued]
    rfl
  rw [usesFrom_pipes hrest hnext count before hfirst, h.noRun rfl, List.length_nil, Nat.zero_add,
    Nat.add_comm 1 count]

/-- The inside of a group, with gaps at its edges and its closing brace. -/
theorem Agrees.inside {body rest : List Token} {nodes : List Node} {front back : Bool}
    (h : Agrees .blocks body nodes (gapTokens back ++ .braceClose :: rest)) {before : List Entry}
    (hsettled : Settled before
      (gapTokens front ++ (body ++ (gapTokens back ++ .braceClose :: rest)))) :
    solid (usesFrom before (gapTokens front ++ (body ++ (gapTokens back ++ [.braceClose]))) rest) =
      Node.usesAll nodes ++ [(.braceClose, .plain)] := by
  obtain ⟨hbody, -⟩ := h _ hsettled.gapTokens
  simp only [usesFrom_append, solid_append, solid_gapTokens, List.append_assoc, List.nil_append,
    List.singleton_append]
  rw [hbody]
  rfl

theorem Derives.agrees {part : Part} {taken rest : List Token} {nodes : List Node}
    (h : Derives part taken nodes rest) (hvalid : ∀ token ∈ taken, token.Valid) :
    Agrees part taken nodes rest := by
  induction h with
  | atom text rest =>
      intro before hfree
      have hpipes := Node.isPipes_of_valid (hvalid _ (List.mem_singleton_self _))
      have huse : useOf before (.atom text) rest = .plain := by
        have hjoins : joinsSeparator before (.atom text) = false := hfree
        rw [useOf, hjoins]
        rfl
      have huses : usesFrom before [.atom text] rest = [(.atom text, .plain)] := by
        rw [← huse]
        rfl
      rw [passed, huses, Node.usesAll, Node.uses, Node.literalUses, hpipes]
      exact ⟨rfl, rfl, rfl⟩
  | hole id => exact fun before _ => ⟨rfl, rfl, rfl⟩
  | @repetition marker sep body separator nodes rest front back hsep hbody ih =>
      intro before _
      simp only [List.forall_mem_cons, List.forall_mem_append] at hvalid
      obtain ⟨-, hvalidSep, -, hvalidBody, -⟩ := hvalid
      have hinside : Balanced (sep ++ (gapTokens front ++ (body ++ gapTokens back))) :=
        hsep.balanced.append ((Balanced.gapTokens front).append
          (hbody.balanced.append (.gapTokens back)))
      have hends := passed_group hinside (Or.inr ⟨marker, rfl⟩) before rest
      simp only [List.append_assoc] at hends
      refine ⟨?_, hends⟩
      -- The body begins after the opening and its separator.
      have hsettled : Settled
          (passed ((.repeatOpen marker, .opening separator) :: before) sep
            (gapTokens front ++ (body ++ (gapTokens back ++ .braceClose :: rest))))
          (gapTokens front ++ (body ++ (gapTokens back ++ .braceClose :: rest))) :=
        hsep.settled hvalidSep
      have hinner := (ih hvalidBody).inside hsettled
      rw [usesFrom, List.append_assoc, usesFrom_append, useOf]
      simp only [List.append_assoc, List.singleton_append]
      rw [hsep.separatorAt_eq, hsep.usesFrom_eq hvalidSep, solid_cons (by simp), solid_append,
        solid_separatorUses, hinner, Node.usesAll_singleton, Node.uses]
  | @curlies body nodes rest front back hbody ih =>
      intro before _
      simp only [List.forall_mem_cons, List.forall_mem_append] at hvalid
      obtain ⟨-, -, hvalidBody, -⟩ := hvalid
      have hinside : Balanced (gapTokens front ++ (body ++ gapTokens back)) :=
        (Balanced.gapTokens front).append (hbody.balanced.append (.gapTokens back))
      have hends := passed_group hinside (Or.inl rfl) before rest
      simp only [List.append_assoc] at hends
      refine ⟨?_, hends⟩
      rw [Node.usesAll_singleton, Node.uses, Node.usesAll_append, Node.usesAll_append,
        Node.usesAll_gapNodes, Node.usesAll_gapNodes, List.append_nil, List.nil_append,
        ← (ih hvalidBody).inside (.brace before _)]
      rfl
  | noBranch hglued => exact fun before hends => ⟨rfl, hends, hglued⟩
  | @branch taken more rest node nodes hbranch hmore ihBranch ihMore =>
      intro before hends
      simp only [List.forall_mem_cons, List.forall_mem_append] at hvalid
      obtain ⟨-, hvalidBranch, hvalidMore⟩ := hvalid
      obtain ⟨token, after, htaken, hstarts⟩ := hbranch.primary_head
      have huse : useOf before .pipe (taken ++ more ++ rest) = .bar (lastBar before + 1) := by
        obtain ⟨-, -, -, -, -, hjoins⟩ := eq_cons_of_endsPrimary hends
        rw [useOf, hjoins, hends, htaken]
        simp [hstarts]
      rw [usesFrom, passed_cons, huse]
      -- A branch is no separator, whatever it begins with.
      have hfree : (taken ++ (more ++ rest)).head?.any
          (joinsSeparator ((.pipe, .bar (lastBar before + 1)) :: before)) = false := by
        rw [htaken]
        rfl
      obtain ⟨hsolid, hendsBranch, hbefore⟩ := ihBranch hvalidBranch _ hfree
      obtain ⟨hsolidMore, hendsMore, hglued⟩ := ihMore hvalidMore _ hendsBranch
      have hlast : lastBar (passed ((.pipe, .bar (lastBar before + 1)) :: before) taken
          (more ++ rest)) = lastBar before + 1 := by
        rw [lastBar, hbefore]
      rw [usesFrom_append, passed_append, solid_cons (by simp), solid_append, hsolid, hsolidMore,
        hlast, Node.usesBranches, Node.usesAll_singleton]
      exact ⟨rfl, hendsMore, hglued⟩
  | @single taken rest node hnode hglued ih =>
      intro before hsettled
      obtain ⟨huses, hends, -⟩ := ih hvalid before hsettled.free
      exact ⟨huses, .of_endsPrimary hends hglued⟩
  | @alternative taken more rest node other nodes hfirst hmore ihFirst ihMore =>
      intro before hsettled
      obtain ⟨hvalidFirst, hvalidMore⟩ := List.forall_mem_append.1 hvalid
      rw [List.append_assoc] at hsettled
      obtain ⟨hsolid, hends, hbefore⟩ := ihFirst hvalidFirst before hsettled.free
      obtain ⟨hsolidMore, hendsMore, hglued⟩ := ihMore hvalidMore _ hends
      -- No bar stands before the first branch.
      have hlast : lastBar (passed before taken (more ++ rest)) = 0 := by
        rw [lastBar, hbefore]
        split
        · exact absurd rfl (hsettled.noBar _)
        · rfl
      rw [usesFrom_append, passed_append, solid_append, hsolid, hsolidMore, hlast]
      refine ⟨?_, .of_endsPrimary hendsMore hglued⟩
      rw [Node.usesAll_singleton, Node.usesAll_singleton, Node.uses]
  | pipes count hhead =>
      intro before hsettled
      rw [passed, usesFrom_pipes_of_settled hsettled hhead, Node.usesAll_singleton, Node.uses,
        Node.literalUses, if_pos (Node.isPipes_pipeText count), Node.literalTokens_pipeText,
        List.reverse_replicate, pipeTokens, List.map_replicate]
      exact ⟨solid_pipes _ _, .pipes (by simp) hhead _⟩
  | noMore => exact fun before hsettled => ⟨rfl, hsettled⟩
  | @more taken more rest node nodes gap hunit hmore ihUnit ihMore =>
      intro before hsettled
      simp only [List.forall_mem_append] at hvalid
      obtain ⟨-, hvalidUnit, hvalidMore⟩ := hvalid
      rw [List.append_assoc, List.append_assoc] at hsettled
      obtain ⟨hsolid, hsettledUnit⟩ := ihUnit hvalidUnit _ hsettled.gapTokens
      obtain ⟨hsolidMore, hsettledMore⟩ := ihMore hvalidMore _ hsettledUnit
      rw [usesFrom_append, usesFrom_append, passed_append, passed_append, solid_append,
        solid_append, solid_gapTokens, List.nil_append, Node.usesAll_append,
        Node.usesAll_gapNodes, List.nil_append, Node.usesAll, ← Node.usesAll_singleton,
        List.append_assoc, hsolid, hsolidMore]
      exact ⟨rfl, hsettledMore⟩
  | @blocks taken more rest node nodes hunit hmore ihUnit ihMore =>
      intro before hsettled
      obtain ⟨hvalidUnit, hvalidMore⟩ := List.forall_mem_append.1 hvalid
      rw [List.append_assoc] at hsettled
      obtain ⟨hsolid, hsettledUnit⟩ := ihUnit hvalidUnit _ hsettled
      obtain ⟨hsolidMore, hsettledMore⟩ := ihMore hvalidMore _ hsettledUnit
      rw [usesFrom_append, passed_append, solid_append, hsolid, hsolidMore, Node.usesAll_singleton]
      exact ⟨rfl, hsettledMore⟩

/-! ## Whole notations -/

/-- In a notation that is read every token is for what its place says: the
separators, the pipes between branches and the literal pipes of the tree are
those that gluing makes, and no branch of an alternative is one itself. -/
theorem pipes_and_separators_by_gluing {source : String} {root : List Node}
    (h : parseTree source = .ok root) :
    ∃ lexemes, lex source = .ok lexemes ∧
      Node.usesAll root = solid (usesFrom [] (lexemes.map Lexeme.token) []) ∧
      Node.isFlatAll root = true := by
  obtain ⟨lexemes, hlex, front, body, back, htokens, hbody⟩ := parseTree_eq_ok_iff.1 h
  have hvalid := (apart_of_lex hlex).valid
  rw [htokens] at hvalid
  simp only [List.forall_mem_append] at hvalid
  obtain ⟨-, hvalidBody, -⟩ := hvalid
  refine ⟨lexemes, hlex, ?_, hbody.isFlatAll hvalidBody⟩
  have hsettled : Settled [] (gapTokens front ++ (body ++ gapTokens back)) := .nil _
  obtain ⟨hsolid, -⟩ := hbody.agrees hvalidBody _ hsettled.gapTokens
  rw [htokens, usesFrom_append, usesFrom_append, solid_append, solid_append, solid_gapTokens,
    solid_gapTokens, List.append_nil, List.append_nil, List.append_nil, List.nil_append, hsolid]

/-- A pipe after a separator is literal, one between a hole and a group is not,
and neither is one after a group. -/
theorem pipes_by_gluing_separator_and_chain :
    ∃ lexemes, lex "\x7b+a|b\x7d @x|\x7bc\x7d|d ||" = .ok lexemes ∧
      Node.usesAll [.repetition .oneOrMore (some "a") [.atomic "|", .atomic "b"], .whitespace,
        .alternative [.hole "x", .curlies [.atomic "c"], .atomic "d"], .whitespace,
        .atomic "||"] = solid (usesFrom [] (lexemes.map Lexeme.token) []) ∧
      Node.isFlatAll [.repetition .oneOrMore (some "a") [.atomic "|", .atomic "b"], .whitespace,
        .alternative [.hole "x", .curlies [.atomic "c"], .atomic "d"], .whitespace,
        .atomic "||"] = true := by
  have hparse : parseTree "\x7b+a|b\x7d @x|\x7bc\x7d|d ||" =
      .ok [.repetition .oneOrMore (some "a") [.atomic "|", .atomic "b"], .whitespace,
        .alternative [.hole "x", .curlies [.atomic "c"], .atomic "d"], .whitespace,
        .atomic "||"] := by decide +kernel
  exact pipes_and_separators_by_gluing hparse

end Grammar
end TacticNotation
