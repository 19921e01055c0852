import Gptps.EditDistance

/-!
# The typo distance

`gptps_edit_distance` fills the table of edit distances row by row in one array, and gives up once a
whole row is over the cap. A key whose first part is one or two edits from a table of the engine is
taken for a typo of the nearest one.
-/

namespace Gptps.TypoDistance

open EditDistance List

variable {w n cap : ℕ} {a b ra rb first : List UInt8} {x : UInt8}

section Source

/-- The inner loop of `gptps_edit_distance`: the row of one more character behind its entry `left`,
and its least entry. -/
def fillRow (x : UInt8) : List UInt8 → List ℕ → ℕ → ℕ → ℕ → List ℕ × ℕ
  | y :: b, up :: row, diag, left, best =>
    let v := diag + if x = y then 0 else 1
    let v := if left + 1 < v then left + 1 else v
    let v := if up + 1 < v then up + 1 else v
    let rest := fillRow x b row up v (if v < best then v else best)
    (v :: rest.1, rest.2)
  | _, _, _, _, best => ([], best)

/-- The outer loop from character `i` on: the last row, unless one is over the cap. -/
def fillTable (cap : ℕ) (b : List UInt8) : List UInt8 → ℕ → List ℕ → Option (List ℕ)
  | [], _, row => some row
  | x :: a, i, row =>
    let next := fillRow x b row.tail (row.headD 0) i i
    if cap < next.2 then none else fillTable cap b a (i + 1) (i :: next.1)

/-- `gptps_edit_distance`, where a size_t has `w` bits. -/
def gptpsEditDistance (a b : List UInt8) (cap : BitVec w) : ℕ :=
  if 256 < a.length ∨ 256 < b.length then (cap + 1).toNat
  else if cap.toNat < if b.length < a.length then a.length - b.length else b.length - a.length then
    (cap + 1).toNat
  else
    match fillTable cap.toNat b a 1 (range (b.length + 1)) with
    | none => (cap + 1).toNat
    | some row => row.getD b.length 0

/-- `CFG_OWN`: every table the engine reads. -/
def cfgOwn : List (List UInt8) :=
  ["limits", "scheduler", "stats", "bounded", "measure", "resources", "task_defaults", "tasks"].map
    fun s => s.toList.map fun c => UInt8.ofNat c.toNat

/-- The loop of `cfg_near_table`: the best table so far, with its distance. -/
def nearLoop (w : ℕ) (first : List UInt8) :
    List (List UInt8) → Option (List UInt8 × ℕ) → Option (List UInt8 × ℕ)
  | [], best => best
  | t :: ts, best =>
    if first = t then none
    else
      let dist := gptpsEditDistance first t (2 : BitVec w)
      nearLoop w first ts (if 1 ≤ dist ∧ dist < best.elim 3 Prod.snd then some (t, dist) else best)

/-- `cfg_near_table`: the engine table `first` is a near miss of, and how far off it is. -/
def cfgNearTable (w : ℕ) (first : List UInt8) : Option (List UInt8 × ℕ) :=
  if first.length ≤ 3 then none else nearLoop w first cfgOwn none

end Source

section Table

/-- The entries of a row behind the one for `rb`: the characters read so far, the last one first. -/
noncomputable def entries (ra : List UInt8) : List UInt8 → List UInt8 → List ℕ
  | _, [] => []
  | rb, y :: b => dist ra (y :: rb) :: entries ra (y :: rb) b

/-- The inner loop makes the next row of the table. -/
theorem fillRow_entries (best : ℕ) :
    fillRow x b (entries ra rb b) (dist ra rb) (dist (x :: ra) rb) best =
      (entries (x :: ra) rb b, (entries (x :: ra) rb b).foldl min best) := by
  induction b generalizing rb best with
  | nil => rfl
  | cons y b ih =>
    have hv := dist_cons_cons x y ra rb
    rw [entries, entries, fillRow, foldl_cons]
    generalize (if x = y then 0 else 1) = k at hv ⊢
    have hentry : (if dist ra (y :: rb) + 1 < (if dist (x :: ra) rb + 1 < dist ra rb + k then
        dist (x :: ra) rb + 1 else dist ra rb + k) then dist ra (y :: rb) + 1
        else if dist (x :: ra) rb + 1 < dist ra rb + k then dist (x :: ra) rb + 1
        else dist ra rb + k) = dist (x :: ra) (y :: rb) := by
      split_ifs <;> omega
    have hbest : (if dist (x :: ra) (y :: rb) < best then dist (x :: ra) (y :: rb) else best) =
        min best (dist (x :: ra) (y :: rb)) := by
      split_ifs <;> omega
    rw [hentry, hbest, ih]

theorem lt_foldl_min {l : List ℕ} {best : ℕ} : n < l.foldl min best ↔ n < best ∧ ∀ v ∈ l, n < v := by
  induction l generalizing best with
  | nil => simp
  | cons v l ih => rw [foldl_cons, ih, lt_min_iff, forall_mem_cons, and_assoc]

/-- A row has the distances of all beginnings. -/
theorem mem_entries (b₁ b₂ : List UInt8) :
    dist ra (b₁.reverse ++ rb) ∈ dist ra rb :: entries ra rb (b₁ ++ b₂) := by
  induction b₁ generalizing rb with
  | nil => exact mem_cons_self
  | cons y b₁ ih =>
    rw [reverse_cons, append_assoc]
    exact mem_cons_of_mem _ (@ih (y :: rb))

/-- The last entry of a row. -/
theorem getD_entries : (dist ra rb :: entries ra rb b).getD b.length 0 = dist ra (b.reverse ++ rb) := by
  induction b generalizing rb with
  | nil => rfl
  | cons y b ih =>
    rw [reverse_cons, append_assoc]
    exact @ih (y :: rb)

/-- The first row. -/
theorem range_entries :
    range' rb.length (b.length + 1) = dist [] rb :: entries [] rb b := by
  induction b generalizing rb with
  | nil => rw [dist_nil_left]; rfl
  | cons y b ih => rw [length_cons, range'_succ, entries, dist_nil_left, ← ih]; rfl

/-- The outer loop makes the last row, or gives up because every entry of it is over the cap. -/
theorem fillTable_entries : fillTable cap b a (ra.length + 1) (dist ra [] :: entries ra [] b) =
      some (dist (a.reverse ++ ra) [] :: entries (a.reverse ++ ra) [] b) ∨
    fillTable cap b a (ra.length + 1) (dist ra [] :: entries ra [] b) = none ∧
      cap < dist (a.reverse ++ ra) b.reverse := by
  induction a generalizing ra with
  | nil => exact .inl rfl
  | cons x a ih =>
    have hone : ra.length + 1 = dist (x :: ra) [] := (dist_nil_right (x :: ra)).symm
    rw [fillTable, tail_cons, headD_cons]
    rw [hone, fillRow_entries, reverse_cons, append_assoc]
    by_cases hover : cap < (entries (x :: ra) [] b).foldl min (dist (x :: ra) [])
    · refine .inr ⟨if_pos hover, dist_append_ge (fun b₁ b₂ hb => ?_) _⟩
      have hall : ∀ v ∈ dist (x :: ra) [] :: entries (x :: ra) [] b, cap < v :=
        forall_mem_cons.mpr (lt_foldl_min.mp hover)
      have hmem := @mem_entries (x :: ra) [] b₂.reverse b₁.reverse
      rw [← reverse_append, ← hb, reverse_reverse, reverse_reverse,
        append_nil] at hmem
      exact hall _ hmem
    · rw [if_neg hover, ← hone]
      have hrest := @ih (x :: ra)
      rwa [← hone, length_cons] at hrest

/-- A distance that is given up on is not the largest size_t. -/
theorem toNat_succ (hw : w = 32 ∨ w = 64) {cap : BitVec w} (h : cap.toNat < 1000) :
    (cap + 1).toNat = cap.toNat + 1 := by
  rcases hw with rfl | rfl <;> bv_omega

/-- What is returned is the distance, or both are over the cap. -/
theorem gptpsEditDistance_cases (hw : w = 32 ∨ w = 64) (ha : a.length ≤ 256) (hb : b.length ≤ 256)
    (cap : BitVec w) : gptpsEditDistance a b cap = dist a b ∨
      cap.toNat < dist a b ∧ gptpsEditDistance a b cap = cap.toNat + 1 := by
  have hlen := (dist_script a b).length
  have hle : dist a b ≤ b.length + a.length := dist_le (.deletes a b)
  have hover (h : cap.toNat < dist a b) : cap.toNat < dist a b ∧ (cap + 1).toNat = cap.toNat + 1 :=
    ⟨h, toNat_succ hw (by omega)⟩
  rw [gptpsEditDistance, if_neg (by omega)]
  by_cases hfar : cap.toNat < if b.length < a.length then a.length - b.length else b.length - a.length
  · rw [if_pos hfar]
    exact .inr (hover (by split_ifs at hfar <;> omega))
  · rw [if_neg hfar]
    have hrows := @fillTable_entries cap.toNat a b []
    rw [← range_entries, append_nil, dist_reverse, length_nil, ← range_eq_range'] at hrows
    rcases hrows with hrow | ⟨hnone, h⟩
    · rw [hrow]
      dsimp only
      rw [getD_entries, append_nil, dist_reverse]
      exact .inl rfl
    · rw [hnone]
      exact .inr (hover h)

end Table

section Tables

/-- A table's name is short, so no key of more than 256 bytes is near it. -/
theorem near_cases (hw : w = 32 ∨ w = 64) {t : List UInt8} (ht : t.length ≤ 200) :
    gptpsEditDistance first t (2 : BitVec w) = dist first t ∨
      2 < dist first t ∧ gptpsEditDistance first t (2 : BitVec w) = 3 := by
  have htwo : (2 : BitVec w).toNat = 2 := by rcases hw with rfl | rfl <;> rfl
  by_cases hlen : first.length ≤ 256
  · have hcases := gptpsEditDistance_cases hw hlen (le_trans ht (by decide)) (2 : BitVec w)
    rwa [htwo] at hcases
  · have hfar := (dist_script first t).length.1
    rw [gptpsEditDistance, if_pos (by omega), toNat_succ hw (by omega), htwo]
    exact .inr ⟨by omega, rfl⟩

theorem nearLoop_mem {ts : List (List UInt8)} (h : first ∈ ts) (best : Option (List UInt8 × ℕ)) :
    nearLoop w first ts best = none := by
  induction ts generalizing best with
  | nil => cases h
  | cons t ts ih =>
    rw [nearLoop]
    split_ifs with heq
    · rfl
    · exact ih ((mem_cons.mp h).resolve_left heq) _

/-- `t` is the first of the nearest tables of `ts`. -/
def Nearest (first : List UInt8) (ts : List (List UInt8)) (t : List UInt8) : Prop :=
  ∃ l₁ l₂, ts = l₁ ++ t :: l₂ ∧ (∀ u ∈ l₁, dist first t < dist first u) ∧
    ∀ u ∈ l₂, dist first t ≤ dist first u

/-- The loop keeps the best so far, or finds the first of the nearest tables. -/
theorem nearLoop_cases (hw : w = 32 ∨ w = 64) {ts : List (List UInt8)} (hno : first ∉ ts)
    (hts : ∀ t ∈ ts, t.length ≤ 200) {best : Option (List UInt8 × ℕ)}
    (hbest : best.elim 3 Prod.snd ≤ 3) :
    (nearLoop w first ts best = best ∧ ∀ t ∈ ts, best.elim 3 Prod.snd ≤ dist first t) ∨
      ∃ t, nearLoop w first ts best = some (t, dist first t) ∧ dist first t < best.elim 3 Prod.snd ∧
        Nearest first ts t := by
  induction ts generalizing best with
  | nil => exact .inl ⟨rfl, nofun⟩
  | cons t ts ih =>
    obtain ⟨hne, hno⟩ := ne_and_not_mem_of_not_mem_cons hno
    obtain ⟨ht, hts⟩ := forall_mem_cons.mp hts
    have hpos : 1 ≤ dist first t := dist_pos hne
    have hnear := @near_cases _ first hw t ht
    rw [nearLoop, if_neg hne]
    by_cases hcloser : dist first t < best.elim 3 Prod.snd
    · have heq : gptpsEditDistance first t (2 : BitVec w) = dist first t := by omega
      simp only [heq, if_pos (And.intro hpos hcloser)]
      rcases @ih hno hts (some (t, dist first t)) (by simpa using by omega) with
        ⟨hrun, hall⟩ | ⟨u, hrun, hlt, l₁, l₂, hsplit, hl₁, hl₂⟩
      · exact .inr ⟨t, hrun, hcloser, [], ts, rfl, nofun, hall⟩
      · have hlt : dist first u < dist first t := hlt
        exact .inr ⟨u, hrun, by omega, t :: l₁, l₂, by rw [hsplit]; rfl,
          forall_mem_cons.mpr ⟨hlt, hl₁⟩, hl₂⟩
    · have hfar : ¬ (1 ≤ gptpsEditDistance first t (2 : BitVec w) ∧
          gptpsEditDistance first t (2 : BitVec w) < best.elim 3 Prod.snd) := by omega
      simp only [if_neg hfar]
      rcases ih hno hts hbest with ⟨hrun, hall⟩ | ⟨u, hrun, hlt, l₁, l₂, hsplit, hl₁, hl₂⟩
      · exact .inl ⟨hrun, forall_mem_cons.mpr ⟨le_of_not_gt hcloser, hall⟩⟩
      · exact .inr ⟨u, hrun, hlt, t :: l₁, l₂, by rw [hsplit]; rfl,
          forall_mem_cons.mpr ⟨by omega, hl₁⟩, hl₂⟩

/-- `gptps_edit_distance` returns the edit distance, or more than the cap where that is more. So
`cfg_near_table` names a table exactly if the first part of the key is longer than three bytes, is no
engine table and one or two edits from one; and then it names the first of the nearest. -/
theorem typo_distance_exact {w : ℕ} (hw : w = 32 ∨ w = 64) :
    (∀ a b : List UInt8, a.length ≤ 256 → b.length ≤ 256 → ∀ cap : BitVec w,
      (dist a b ≤ cap.toNat → gptpsEditDistance a b cap = dist a b) ∧
      (cap.toNat < dist a b → cap.toNat < gptpsEditDistance a b cap)) ∧
    ∀ first, ((∃ t d, cfgNearTable w first = some (t, d)) ↔
        3 < first.length ∧ first ∉ cfgOwn ∧ ∃ t ∈ cfgOwn, dist first t = 1 ∨ dist first t = 2) ∧
      ∀ t d, cfgNearTable w first = some (t, d) → d = dist first t ∧ Nearest first cfgOwn t := by
  refine ⟨fun a b ha hb cap => ?_, fun first => ?_⟩
  · rcases gptpsEditDistance_cases hw ha hb cap with heq | ⟨hlt, heq⟩
    · exact ⟨fun _ => heq, fun h => heq ▸ h⟩
    · exact ⟨fun hle => absurd hlt (Nat.not_lt.mpr hle), fun _ => heq ▸ Nat.lt_succ_self _⟩
  · rw [cfgNearTable]
    by_cases hshort : first.length ≤ 3
    · rw [if_pos hshort]
      exact ⟨⟨nofun, fun h => absurd h.1 (Nat.not_lt.mpr hshort)⟩, nofun⟩
    rw [if_neg hshort]
    by_cases hown : first ∈ cfgOwn
    · rw [nearLoop_mem hown]
      exact ⟨⟨nofun, fun h => absurd hown h.2.1⟩, nofun⟩
    have hlong : 3 < first.length := lt_of_not_ge hshort
    rcases @nearLoop_cases _ _ hw _ hown (by decide) none (le_refl 3) with
      ⟨hrun, hall⟩ | ⟨t, hrun, hlt, hnear⟩
    · rw [hrun]
      refine ⟨⟨nofun, fun ⟨_, _, t, ht, hd⟩ => ?_⟩, nofun⟩
      have hle : 3 ≤ dist first t := hall t ht
      omega
    · rw [hrun]
      obtain ⟨l₁, l₂, hsplit, -⟩ := id hnear
      have ht : t ∈ cfgOwn := by rw [hsplit]; simp
      have hlt : dist first t < 3 := hlt
      have hpos := dist_pos (a := first) (b := t) fun heq => hown (heq ▸ ht)
      refine ⟨⟨fun _ => ⟨hlong, hown, t, ht, by omega⟩, fun _ => ⟨t, _, rfl⟩⟩, fun u d heq => ?_⟩
      cases heq
      exact ⟨rfl, hnear⟩

/-- `[taks]` is `[tasks]`. -/
theorem typo_distance_exact_taks :
    ∃ d, cfgNearTable 64 [116, 97, 107, 115] = some ([116, 97, 115, 107, 115], d) ∧
      d = dist [(116 : UInt8), 97, 107, 115] [116, 97, 115, 107, 115] :=
  have hnear : cfgNearTable 64 [116, 97, 107, 115] = some ([116, 97, 115, 107, 115], 1) := by decide
  ⟨1, hnear, (((typo_distance_exact (.inr rfl)).2 _).2 _ _ hnear).1⟩

end Tables

end Gptps.TypoDistance
