import Sequences.Proofs.FullCycle
import Sequences.Proofs.Orders
import Sequences.Workspace.Operation

/-! Random choices. What is drawn is a choice for every place, whatever the source of the words
is; there are words for all choices; and a congruential generator always comes to the end of
it. -/
namespace Sequences

namespace Draw

variable {β γ : Type} {P : β → Prop} {Q : γ → Prop} {draw : Draw β} {next : β → Draw γ}

theorem run_bind_of_ok {generator later : Generator} {x : β}
    (hRun : draw.run.run generator = (.ok x, later)) (next : β → Draw γ) :
    (draw >>= next).run.run generator = (next x).run.run later := by
  rw [ExceptT.run_bind, StateT.run_bind, hRun]
  rfl

theorem run_bind_of_error {generator later : Generator} {fault : Fault}
    (hRun : draw.run.run generator = (.error fault, later)) (next : β → Draw γ) :
    (draw >>= next).run.run generator = (.error fault, later) := by
  rw [ExceptT.run_bind, StateT.run_bind, hRun]
  rfl

/-- Whatever is drawn has the property, and nothing ends a draw before but that the words run
out. -/
def Ensures (draw : Draw β) (P : β → Prop) : Prop :=
  ∀ generator, ∃ later, (∃ x, draw.run.run generator = (.ok x, later) ∧ P x) ∨
    draw.run.run generator = (.error .exhausted, later)

theorem ensures_pure {x : β} (hx : P x) : Ensures (pure x) P := fun generator =>
  ⟨generator, .inl ⟨x, rfl, hx⟩⟩

theorem ensures_word : Ensures word fun _ => True := by
  intro generator
  rcases generator with state | ⟨_ | ⟨first, rest⟩, used⟩
  · exact ⟨_, .inl ⟨_, rfl, trivial⟩⟩
  · exact ⟨_, .inr rfl⟩
  · exact ⟨_, .inl ⟨_, rfl, trivial⟩⟩

theorem Ensures.bind (hDraw : Ensures draw P) (hNext : ∀ x, P x → Ensures (next x) Q) :
    Ensures (draw >>= next) Q := by
  intro generator
  obtain ⟨middle, ⟨x, hRun, hx⟩ | hRun⟩ := hDraw generator
  · rw [run_bind_of_ok hRun]
    exact hNext x hx middle
  · rw [run_bind_of_error hRun]
    exact ⟨middle, .inr rfl⟩

theorem Ensures.of_ok {generator later : Generator} {x : β} (hDraw : Ensures draw P)
    (hRun : draw.run.run generator = (.ok x, later)) : P x := by
  obtain ⟨other, ⟨y, hOther, hy⟩ | hOther⟩ := hDraw generator
  · cases hRun.symm.trans hOther
    exact hy
  · cases hRun.symm.trans hOther

theorem lt_of_scaled? {bound number : Nat} {word : UInt64} (hBound : 0 < bound)
    (hScaled : scaled? bound word = some number) : number < bound := by
  simp only [scaled?] at hScaled
  split at hScaled
  next => cases hScaled
  next =>
    cases hScaled
    apply Nat.div_lt_of_lt_mul
    exact Nat.mul_lt_mul_of_pos_right word.toNat_lt hBound

theorem ensures_retry {bound : Nat} (hBound : 0 < bound) (tries : Nat) :
    Ensures (retry bound tries) (· < bound) := by
  induction tries with
  | zero => exact fun generator => ⟨generator, .inr rfl⟩
  | succ tries ih =>
      refine ensures_word.bind fun first _ => ?_
      split
      next number hScaled => exact ensures_pure (lt_of_scaled? hBound hScaled)
      next => exact ih

theorem below_of_isPowerOfTwo {bound : Nat} (hPower : isPowerOfTwo bound = true) :
    below bound = word >>= fun first => pure (first.toNat % bound) := by
  rw [below, if_pos hPower]

-- Stated of a generator that is not known, since one that is congruential has too many tries to
-- be unfolded.
theorem run_below_of_not_isPowerOfTwo {bound : Nat} (hPower : ¬isPowerOfTwo bound = true)
    (generator : Generator) :
    (below bound).run.run generator = (retry bound generator.horizon).run.run generator := by
  rw [below, if_neg hPower]
  rfl

theorem ensures_below {bound : Nat} (hBound : 0 < bound) : Ensures (below bound) (· < bound) := by
  by_cases hPower : isPowerOfTwo bound = true
  · rw [below_of_isPowerOfTwo hPower]
    exact ensures_word.bind fun first _ => ensures_pure (Nat.mod_lt _ hBound)
  · intro generator
    rw [run_below_of_not_isPowerOfTwo hPower]
    exact ensures_retry hBound generator.horizon generator

theorem ensures_drawChoices (place : Nat) :
    Ensures (drawChoices place) (· ∈ choicesFrom place) := by
  induction place with
  | zero => exact ensures_pure nil_mem_choicesFrom
  | succ place ih =>
      refine (ensures_below (Nat.succ_pos _)).bind fun choice hChoice => ?_
      refine ih.bind fun rest hRest => ensures_pure ?_
      exact cons_mem_choicesFrom_iff.mpr ⟨Nat.le_of_lt_succ hChoice, hRest⟩

/-- A congruential generator comes to the end of the draw. -/
def Returns (draw : Draw β) : Prop :=
  ∀ state, ∃ x later, draw.run.run (.congruential state) = (.ok x, .congruential later)

theorem returns_pure (x : β) : Returns (pure x) := fun state => ⟨x, state, rfl⟩

theorem run_word_congruential (state : BitVec 128) :
    word.run.run (.congruential state) =
      (.ok (Generator.scramble (Generator.step state)), .congruential (Generator.step state)) :=
  rfl

theorem returns_word : Returns word := fun state => ⟨_, _, run_word_congruential state⟩

theorem Returns.bind (hDraw : Returns draw) (hNext : ∀ x, Returns (next x)) :
    Returns (draw >>= next) := by
  intro state
  obtain ⟨x, later, hRun⟩ := hDraw state
  rw [run_bind_of_ok hRun]
  exact hNext x later

/-- Among so many words there is one whose product with the bound has this quotient and no
small rest. -/
theorem exists_product {bound number count : Nat} (hBound : bound ≤ count)
    (hNumber : number < bound) :
    ∃ word < count, word * bound / count = number ∧ count % bound ≤ word * bound % count := by
  have hPos : 0 < bound := Nat.zero_lt_of_lt hNumber
  -- The least multiple of the bound that is not below the products to be rejected.
  let least := number * count + count % bound
  let word := (least + (bound - 1)) / bound
  have hRoom : count % bound + bound ≤ count := by
    have hDivMod := Nat.div_add_mod count bound
    have hOnce : bound ≤ bound * (count / bound) :=
      Nat.le_mul_of_pos_right bound (Nat.div_pos hBound hPos)
    omega
  have hProduct : word * bound + (least + (bound - 1)) % bound = least + (bound - 1) :=
    Nat.div_add_mod' _ _
  have hMod := Nat.mod_lt (least + (bound - 1)) hPos
  have hNext : (number + 1) * count = number * count + count := Nat.succ_mul _ _
  have hLower : number * count + count % bound ≤ word * bound := by omega
  have hUpper : word * bound < (number + 1) * count := by omega
  have hQuotient : word * bound / count = number :=
    Nat.div_eq_of_lt_le (by omega) hUpper
  have hRest := Nat.div_add_mod' (word * bound) count
  rw [hQuotient] at hRest
  refine ⟨word, ?_, hQuotient, by omega⟩
  have hLess : word * bound < count * bound :=
    calc word * bound < (number + 1) * count := hUpper
      _ ≤ bound * count := Nat.mul_le_mul_right count hNumber
      _ = count * bound := Nat.mul_comm _ _
  exact Nat.lt_of_mul_lt_mul_right hLess

/-- For every number below the bound there is a word that is scaled to it. -/
theorem exists_scaled?_eq {bound number : Nat} (hBound : bound ≤ wordCount)
    (hNumber : number < bound) : ∃ word, scaled? bound word = some number := by
  obtain ⟨word, hWord, hQuotient, hRest⟩ := exists_product hBound hNumber
  have hToNat : (UInt64.ofNat word).toNat = word := UInt64.toNat_ofNat_of_lt' hWord
  exact ⟨.ofNat word, by simp only [scaled?, hToNat, if_neg hRest.not_gt, hQuotient]⟩

/-- The tries end at the latest with the given word of the cycle. -/
theorem exists_retry_eq {bound tries : Nat} {state : BitVec 128} {n : Nat} (hn : n < tries)
    (hScaled : scaled? bound (Generator.scramble (Generator.step^[n + 1] state)) ≠ none) :
    ∃ number later, (retry bound tries).run.run (.congruential state) =
      (.ok number, .congruential later) := by
  induction tries generalizing state n with
  | zero => cases hn
  | succ tries ih =>
      rw [retry, run_bind_of_ok (run_word_congruential state)]
      rw [Function.iterate_succ_apply] at hScaled
      cases hTry : scaled? bound (Generator.scramble (Generator.step state)) with
      | some number => exact ⟨number, Generator.step state, rfl⟩
      | none =>
          cases n with
          | zero =>
              rw [Function.iterate_zero, id_eq] at hScaled
              exact absurd hTry hScaled
          | succ n => exact ih (Nat.lt_of_succ_lt_succ hn) hScaled

theorem returns_below {bound : Nat} (hPos : 0 < bound) (hBound : bound ≤ wordCount) :
    Returns (below bound) := by
  by_cases hPower : isPowerOfTwo bound = true
  · rw [below_of_isPowerOfTwo hPower]
    exact returns_word.bind fun first => returns_pure _
  · intro state
    -- Some word is accepted, and the cycle brings it within the tries that there are.
    obtain ⟨accepted, hAccepted⟩ := exists_scaled?_eq hBound hPos
    obtain ⟨target, hTarget⟩ := Generator.exists_scramble accepted
    obtain ⟨n, hn, hSteps⟩ := Generator.exists_iterate_step (Generator.step state) target
    have hScaled : scaled? bound (Generator.scramble (Generator.step^[n + 1] state)) ≠ none := by
      rw [Function.iterate_succ_apply, hSteps, hTarget, hAccepted]
      exact Option.some_ne_none _
    rw [run_below_of_not_isPowerOfTwo hPower, Generator.horizon]
    exact exists_retry_eq hn hScaled

theorem returns_drawChoices {place : Nat} (hPlace : place < wordCount) :
    Returns (drawChoices place) := by
  induction place with
  | zero => exact returns_pure _
  | succ place ih =>
      refine (returns_below (Nat.succ_pos _) hPlace).bind fun choice => ?_
      exact (ih (by omega)).bind fun rest => returns_pure _

/-- Just these words are taken for the result. -/
def Takes (draw : Draw β) (words : List UInt64) (x : β) : Prop :=
  ∀ rest used, draw.run.run (.words (words ++ rest) used) =
    (.ok x, .words rest (used + words.length))

theorem takes_pure (x : β) : Takes (pure x) [] x := fun _ _ => rfl

theorem takes_word (first : UInt64) : Takes word [first] first := fun _ _ => rfl

theorem Takes.bind {words more : List UInt64} {x : β} {y : γ} (hDraw : Takes draw words x)
    (hNext : Takes (next x) more y) : Takes (draw >>= next) (words ++ more) y := by
  intro rest used
  rw [List.append_assoc, run_bind_of_ok (hDraw _ _), hNext, List.length_append, Nat.add_assoc]

theorem exists_takes_below {bound number : Nat} (hBound : bound ≤ wordCount)
    (hNumber : number < bound) : ∃ word, Takes (below bound) [word] number := by
  by_cases hPower : isPowerOfTwo bound = true
  · have hWord : (UInt64.ofNat number).toNat % bound = number := by
      rw [UInt64.toNat_ofNat_of_lt' (hNumber.trans_le hBound), Nat.mod_eq_of_lt hNumber]
    refine ⟨.ofNat number, ?_⟩
    rw [below_of_isPowerOfTwo hPower]
    refine (takes_word _).bind ?_
    rw [hWord]
    exact takes_pure number
  · obtain ⟨first, hScaled⟩ := exists_scaled?_eq hBound hNumber
    refine ⟨first, fun rest used => ?_⟩
    rw [run_below_of_not_isPowerOfTwo hPower, Generator.horizon, retry,
      run_bind_of_ok (takes_word first rest used), hScaled]
    rfl

theorem exists_takes_drawChoices {place : Nat} {choices : List Nat}
    (hPlace : place < wordCount) (hChoices : choices ∈ choicesFrom place) :
    ∃ words, Takes (drawChoices place) words choices := by
  induction place generalizing choices with
  | zero =>
      rw [List.eq_nil_of_length_eq_zero hChoices.1]
      exact ⟨[], takes_pure _⟩
  | succ place ih =>
      obtain ⟨choice, rest, rfl, hChoice, hRest⟩ := exists_cons_of_mem_choicesFrom hChoices
      obtain ⟨first, hFirst⟩ := exists_takes_below hPlace (Nat.lt_succ_of_le hChoice)
      obtain ⟨words, hWords⟩ := ih (by omega) hRest
      exact ⟨_, hFirst.bind (hWords.bind (takes_pure _))⟩

end Draw

variable {α : Type} {generator : Generator} {list : Stored α}

/-- What shuffling a list gives. -/
def shuffleOutcome (τ : Type) (generator : Generator) (list : Stored α) :
    Except Failure (Result α) :=
  ((Operation.shuffle list : Operation α τ (Stored α) (Stored (Stored α))).perform
    generator).1.outcome

/-- The report of a list in the order of these choices. -/
def arranged (choices : List Nat) (list : Stored α) : Except Failure (Result α) :=
  .ok (.list (.ofList (arrange choices list.items)))

theorem shuffleOutcome_of_ok (τ : Type) {choices : List Nat} {later : Generator}
    (hRun : (drawChoices (list.items.length - 1)).run.run generator = (.ok choices, later)) :
    shuffleOutcome τ generator list = arranged choices list := by
  have hShuffle : (shuffle list.items).run.run generator =
      (.ok (arrange choices list.items), later) := Draw.run_bind_of_ok hRun _
  simp only [shuffleOutcome, Operation.perform, shuffleStored_eq, ExceptT.run_map,
    StateT.run_map, hShuffle]
  rfl

theorem shuffleOutcome_of_error (τ : Type) {fault : Fault} {later : Generator}
    (hRun : (drawChoices (list.items.length - 1)).run.run generator = (.error fault, later)) :
    shuffleOutcome τ generator list = .error (.interrupted fault) := by
  have hShuffle : (shuffle list.items).run.run generator = (.error fault, later) :=
    Draw.run_bind_of_error hRun _
  simp only [shuffleOutcome, Operation.perform, shuffleStored_eq, ExceptT.run_map,
    StateT.run_map, hShuffle]
  rfl

theorem ofList_arrange_eq_none_iff {xs : List α} {choices : List Nat}
    (hChoices : choices ∈ choicesFrom (xs.length - 1)) :
    Stored.ofList (arrange choices xs) = none ↔ xs = [] := by
  rw [Stored.ofList_eq_none_iff, ← List.length_eq_zero_iff, (arrange_perm rfl hChoices).length_eq,
    List.length_eq_zero_iff]

theorem shuffleOutcome_cases (τ : Type) (generator : Generator) (list : Stored α) :
    (∃ choices ∈ choicesFrom (list.items.length - 1),
      shuffleOutcome τ generator list = arranged choices list) ∨
    shuffleOutcome τ generator list = .error (.interrupted .exhausted) := by
  obtain ⟨later, ⟨choices, hRun, hChoices⟩ | hRun⟩ :=
    Draw.ensures_drawChoices (list.items.length - 1) generator
  · left
    exact ⟨choices, hChoices, shuffleOutcome_of_ok τ hRun⟩
  · right
    exact shuffleOutcome_of_error τ hRun

theorem shuffleOutcome_congruential (τ : Type)
    (hLength : list.items.length - 1 < Draw.wordCount) (state : BitVec 128) :
    ∃ choices ∈ choicesFrom (list.items.length - 1),
      shuffleOutcome τ (.congruential state) list = arranged choices list := by
  obtain ⟨choices, later, hRun⟩ := Draw.returns_drawChoices hLength state
  have hChoices := (Draw.ensures_drawChoices _).of_ok hRun
  exact ⟨choices, hChoices, shuffleOutcome_of_ok τ hRun⟩

theorem exists_words_shuffleOutcome_eq (τ : Type) {choices : List Nat}
    (hLength : list.items.length - 1 < Draw.wordCount)
    (hChoices : choices ∈ choicesFrom (list.items.length - 1)) :
    ∃ words, shuffleOutcome τ (.ofWords words) list = arranged choices list := by
  obtain ⟨words, hTakes⟩ := Draw.exists_takes_drawChoices hLength hChoices
  have hRun := hTakes [] 0
  rw [List.append_nil] at hRun
  exact ⟨words, shuffleOutcome_of_ok τ hRun⟩

/-- Shuffling loses nothing and reaches every order exactly once. For all choices the result
has the elements of the list, and it is absent just if there are none. Where the elements are
distinct, each order comes from one sequence of choices, and there are as many as the factorial
of their number. Every shuffling that is not stopped because the words run out is one of
these; a congruential generator is never stopped; and there are words for all choices. -/
theorem shuffle_reachesEveryOrder (τ : Type) (list : Stored α) :
    let xs := list.items
    let possible := choicesFrom (xs.length - 1)
    (∀ choices ∈ possible, (arrange choices xs).Perm xs ∧
      (Stored.ofList (arrange choices xs) = none ↔ xs = [])) ∧
    (xs.Nodup →
      Set.BijOn (fun choices => arrange choices xs) possible {ys : List α | ys.Perm xs} ∧
      {ys : List α | ys.Perm xs}.ncard = xs.length.factorial) ∧
    (∀ generator, (∃ choices ∈ possible, shuffleOutcome τ generator list = arranged choices list) ∨
      shuffleOutcome τ generator list = .error (.interrupted .exhausted)) ∧
    (xs.length ≤ Draw.wordCount →
      (∀ state, ∃ choices ∈ possible,
        shuffleOutcome τ (.congruential state) list = arranged choices list) ∧
      ∀ choices ∈ possible, ∃ words,
        shuffleOutcome τ (.ofWords words) list = arranged choices list) := by
  intro xs possible
  have hFits (hLength : xs.length ≤ Draw.wordCount) : xs.length - 1 < Draw.wordCount := by
    have hCount : 0 < Draw.wordCount := by decide
    omega
  refine ⟨?_, ?_, fun generator => shuffleOutcome_cases τ generator list, ?_⟩
  · intro choices hChoices
    exact ⟨arrange_perm rfl hChoices, ofList_arrange_eq_none_iff hChoices⟩
  · intro hNodup
    exact ⟨arrange_bijOn hNodup, ncard_orders hNodup⟩
  · intro hLength
    exact ⟨shuffleOutcome_congruential τ (hFits hLength),
      fun choices => exists_words_shuffleOutcome_eq τ (hFits hLength)⟩

/-- Three elements. For one of their orders there are words of which the first is rejected,
and the same words run out if that one is not followed by enough others. -/
theorem shuffle_three :
    let triple : Stored Nat := some [7, 8, 9]
    [0, 1] ∈ choicesFrom 2 ∧ arrange [0, 1] [7, 8, 9] = [9, 8, 7] ∧
      [9, 8, 7].Perm [7, 8, 9] ∧
      Set.BijOn (fun choices => arrange choices [7, 8, 9]) (choicesFrom 2)
        {ys | ys.Perm [7, 8, 9]} ∧
      {ys : List Nat | ys.Perm [7, 8, 9]}.ncard = 6 ∧
      (∃ choices ∈ choicesFrom 2,
        shuffleOutcome Unit (.ofSeeds 9 10) triple = arranged choices triple) ∧
      (∃ words, shuffleOutcome Unit (.ofWords words) triple = arranged [0, 1] triple) ∧
      shuffleOutcome Unit (.ofWords [0, 1, 1]) triple = arranged [0, 1] triple ∧
      shuffleOutcome Unit (.ofWords [0, 1]) triple = .error (.interrupted .exhausted) := by
  intro triple
  obtain ⟨hPerm, hDistinct, -, hRuns⟩ := shuffle_reachesEveryOrder Unit triple
  have hChoices : [0, 1] ∈ choicesFrom 2 :=
    cons_mem_choicesFrom_iff.mpr ⟨by decide,
      cons_mem_choicesFrom_iff.mpr ⟨by decide, nil_mem_choicesFrom⟩⟩
  obtain ⟨hBijective, hCount⟩ := hDistinct (by decide)
  obtain ⟨hSeeds, hWords⟩ := hRuns (by decide)
  exact ⟨hChoices, by decide, (hPerm [0, 1] hChoices).1, hBijective, hCount, hSeeds _,
    hWords [0, 1] hChoices, rfl, rfl⟩

end Sequences
