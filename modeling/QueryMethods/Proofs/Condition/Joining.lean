/-
Joined conditions. Joining conditions with a junction keeps what they say together and makes no
needless node: out of normal conditions, in which no junction has a single child or a child that is the
same junction, it makes a normal condition.
-/
import Mathlib.Data.List.Forall2
import QueryMethods.Proofs.Condition.Evaluation

namespace QueryMethods

/-! ## Truth -/

theorem Junction.combine_flatMap {α : Type} (j : Junction) (f : α → List Bool) (l : List α) :
    j.combine (l.flatMap f) = j.combine (l.map fun a => j.combine (f a)) := by
  cases j with
  | and => simp only [combine, List.all_flatMap, List.all_map]; rfl
  | or => simp only [combine, List.any_flatMap, List.any_map]; rfl

theorem Junction.combine_singleton (j : Junction) (b : Bool) : j.combine [b] = b := by
  cases j <;> simp [combine]

namespace Condition

variable {holds : Comparison → Bool} {j : Junction}

theorem evals_eq_map (holds : Comparison → Bool) (cs : List Condition) :
    evals holds cs = cs.map (eval holds) := by
  induction cs with
  | nil => rfl
  | cons c cs ih => rw [evals, ih, List.map_cons]

theorem eval_junction (j : Junction) (cs : List Condition) :
    (junction j cs).eval holds = j.combine (cs.map (eval holds)) := by
  rw [eval, evals_eq_map]

/-- What a condition gives to a junction says together what the condition says. -/
theorem combine_operands (j : Junction) (c : Condition) :
    j.combine ((c.operands j).map (eval holds)) = c.eval holds := by
  cases c with
  | junction j' cs =>
    rw [operands]
    split
    · rename_i h
      rw [h, eval_junction]
    · exact j.combine_singleton _
  | _ => exact j.combine_singleton _

theorem eval_join (j : Junction) (cs : List Condition) :
    (join j cs).eval holds = j.combine (cs.map (eval holds)) := by
  have hflat : j.combine ((cs.flatMap (operands j)).map (eval holds)) =
      j.combine (cs.map (eval holds)) := by
    rw [List.map_flatMap, Junction.combine_flatMap]
    simp only [combine_operands]
  unfold join
  split
  · rename_i c hc
    rw [← hflat, hc]
    exact (j.combine_singleton _).symm
  · rw [eval_junction, hflat]

/-! ## Comparisons -/

theorem comparisons_operands (j : Junction) (c : Condition) :
    (c.operands j).flatMap comparisons = c.comparisons := by
  cases c with
  | junction j' cs =>
    rw [operands]
    split
    · rw [comparisons, comparisonsAll_eq_flatMap]
    · exact List.flatMap_singleton _ _
  | _ => exact List.flatMap_singleton _ _

/-- Joining loses no comparison and changes no order. -/
theorem comparisons_join (j : Junction) (cs : List Condition) :
    (join j cs).comparisons = cs.flatMap comparisons := by
  have hflat : (cs.flatMap (operands j)).flatMap comparisons = cs.flatMap comparisons := by
    rw [List.flatMap_assoc]
    exact List.flatMap_congr fun c _ => comparisons_operands j c
  unfold join
  split
  · rename_i c hc
    rw [← hflat, hc, List.flatMap_singleton]
  · rw [comparisons, comparisonsAll_eq_flatMap, hflat]

/-! ## Normal form -/

/-- The condition is this junction of some children. -/
def IsJunction (j : Junction) (c : Condition) : Prop :=
  ∃ cs, c = .junction j cs

mutual

/-- No junction in the condition has exactly one child, and none has a child that is the same
junction. -/
def Normal : Condition → Prop
  | .comparison _ => True
  | .junction j cs => cs.length ≠ 1 ∧ (∀ c ∈ cs, ¬c.IsJunction j) ∧ NormalAll cs
  | .not c => Normal c

/-- Each of some conditions is normal. -/
def NormalAll : List Condition → Prop
  | [] => True
  | c :: r => Normal c ∧ NormalAll r

end

theorem normalAll_iff {cs : List Condition} : NormalAll cs ↔ ∀ c ∈ cs, c.Normal := by
  induction cs with
  | nil => exact ⟨fun _ => nofun, fun _ => trivial⟩
  | cons c cs ih => rw [NormalAll, ih, List.forall_mem_cons]

/-- What a normal condition gives to a junction is normal and not that junction. -/
theorem normal_operands {c : Condition} (h : c.Normal) :
    ∀ b ∈ c.operands j, b.Normal ∧ ¬b.IsJunction j := by
  have hself (hc : ¬c.IsJunction j) : ∀ b ∈ [c], b.Normal ∧ ¬b.IsJunction j :=
    List.forall_mem_singleton.2 ⟨h, hc⟩
  cases c with
  | junction j' cs =>
    obtain ⟨-, hkinds, hcs⟩ := h
    rw [operands]
    split
    · rename_i hj
      subst hj
      exact fun b hb => ⟨normalAll_iff.1 hcs b hb, hkinds b hb⟩
    · rename_i hj
      exact hself fun ⟨_, he⟩ => hj (junction.inj he).1
  | comparison k => exact hself fun ⟨_, he⟩ => nomatch he
  | not c => exact hself fun ⟨_, he⟩ => nomatch he

theorem normal_join {cs : List Condition} (h : ∀ c ∈ cs, c.Normal) : (join j cs).Normal := by
  have hflat : ∀ b ∈ cs.flatMap (operands j), b.Normal ∧ ¬b.IsJunction j := by
    intro b hb
    obtain ⟨c, hc, hb⟩ := List.mem_flatMap.1 hb
    exact normal_operands (h c hc) b hb
  unfold join
  split
  · rename_i c hc
    rw [hc] at hflat
    exact (hflat c List.mem_cons_self).1
  · rename_i hmany
    refine ⟨fun hlength => ?_, fun b hb => (hflat b hb).2, normalAll_iff.2 fun b hb => (hflat b hb).1⟩
    obtain ⟨c, hc⟩ := List.length_eq_one_iff.1 hlength
    exact hmany c hc

/-! ## Joining what was joined -/

/-- Joined normal conditions give to their junction what each of them gives to it. -/
theorem operands_join {cs : List Condition} (h : ∀ c ∈ cs, c.Normal) :
    (join j cs).operands j = cs.flatMap (operands j) := by
  unfold join
  split
  · rename_i c hc
    -- A condition that stands for itself alone came from a normal one, so it is not the junction.
    have hmem : c ∈ cs.flatMap (operands j) := by
      rw [hc]
      exact List.mem_singleton_self c
    obtain ⟨b, hb, hcb⟩ := List.mem_flatMap.1 hmem
    rw [hc]
    cases c with
    | junction j' ds =>
      refine if_neg ?_
      rintro rfl
      exact (normal_operands (h b hb) _ hcb).2 ⟨ds, rfl⟩
    | _ => rfl
  · exact if_pos rfl

/-- Joining lists of normal conditions one by one and then together is joining them all at once. -/
theorem join_map_join {lists : List (List Condition)} (h : ∀ cs ∈ lists, ∀ c ∈ cs, c.Normal) :
    join j (lists.map (join j)) = join j lists.flatten := by
  have hflat : (lists.map (join j)).flatMap (operands j) = lists.flatten.flatMap (operands j) := by
    rw [List.flatMap_map, ← List.flatMap_id, List.flatMap_assoc]
    exact List.flatMap_congr fun cs hcs => operands_join (h cs hcs)
  rw [join, join, hflat]

/-- Joined conditions say what their conjunction or disjunction says, are normal if they were, and then
are joined to others as if all had been joined at once. -/
theorem normalForm_join (j : Junction) :
    (∀ holds cs, (join j cs).eval holds = j.combine (cs.map (eval holds))) ∧
      (∀ cs, (∀ c ∈ cs, c.Normal) → (join j cs).Normal) ∧
      ∀ xs ys, (∀ c ∈ xs, c.Normal) → (∀ c ∈ ys, c.Normal) →
        join j [join j xs, join j ys] = join j (xs ++ ys) := by
  refine ⟨fun holds cs => eval_join j cs, fun cs => normal_join, fun xs ys hxs hys => ?_⟩
  have hlists : ∀ cs ∈ [xs, ys], ∀ c ∈ cs, c.Normal :=
    List.forall_mem_cons.2 ⟨hxs, List.forall_mem_singleton.2 hys⟩
  have hjoin : join j ([xs, ys].map (join j)) = join j [xs, ys].flatten := join_map_join hlists
  rwa [List.flatten_cons, List.flatten_singleton] at hjoin

/-- Two comparisons in a disjunction. -/
def eitherAge : Condition :=
  .junction .or [.compare "age" .lessThan (.int 18), .compare "age" .greaterThan (.int 65)]

/-- A disjunction that is left alone comes to the surface, and a conjunction of nothing goes away. -/
theorem normalForm_surfacing :
    (∀ c ∈ [eitherAge], c.Normal) ∧ (∀ c ∈ [junction .and []], c.Normal) ∧
      join .and [join .and [eitherAge], join .and [junction .and []]] = eitherAge ∧
      join .or [join .or [eitherAge], join .or [junction .and []]] =
        join .or [eitherAge, junction .and []] := by
  have heither : ∀ c ∈ [eitherAge], c.Normal := by
    simp [eitherAge, Normal, NormalAll, IsJunction, compare]
  have hnothing : ∀ c ∈ [junction .and []], c.Normal := by
    simp [Normal, NormalAll]
  refine ⟨heither, hnothing, ?_, ?_⟩
  · exact ((normalForm_join .and).2.2 _ _ heither hnothing).trans rfl
  · exact (normalForm_join .or).2.2 _ _ heither hnothing

/-! ## Meaning -/

/-- The condition is normal and says what the test says, given the truth of comparisons. -/
def Means (c : Condition) (test : (Comparison → Bool) → Bool) : Prop :=
  (∀ holds, c.eval holds = test holds) ∧ c.Normal

theorem means_join {α : Type} {as : List α} {cs : List Condition} (j : Junction)
    (test : α → (Comparison → Bool) → Bool)
    (h : List.Forall₂ (fun a c => c.Means (test a)) as cs) :
    (join j cs).Means fun holds => j.combine (as.map fun a => test a holds) := by
  obtain ⟨heval, hnormal⟩ : (∀ holds, cs.map (eval holds) = as.map fun a => test a holds) ∧
      ∀ c ∈ cs, c.Normal := by
    induction h with
    | nil => exact ⟨fun _ => rfl, nofun⟩
    | cons hmeans _ ih =>
      refine ⟨fun holds => ?_, List.forall_mem_cons.2 ⟨hmeans.2, ih.2⟩⟩
      rw [List.map_cons, List.map_cons, hmeans.1, ih.1]
  exact ⟨fun holds => by rw [eval_join, heval], normal_join hnormal⟩

end Condition

end QueryMethods
