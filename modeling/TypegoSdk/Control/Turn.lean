import TypegoSdk.Control.Rounds
import TypegoSdk.Control.Stop

/-!
# The angle that `rotate` measures

`rotate` adds up the differences of consecutive yaw readings, corrected by a
full turn when a difference is larger than half a turn. While the heading
changes by less than half a turn between two readings, the sum is the true
turn since the first reading, over any number of full turns.
-/

namespace TypegoSdk.Control
open TypegoSdk.Lib
variable {ι K : Type} [Field K] [LinearOrder K]

/- `t k` is the heading without wrap-around at the `k`-th reading. -/
structure Heads (trig : Trig K) (t : ℕ → K) (poses : List (Pose K)) : Prop where
  turn : ∀ k, |t (k + 1) - t k| < trig.pi
  yaw : ∀ k pose, poses[k]? = some pose →
    |pose.yaw| ≤ trig.pi ∧ ∃ n : ℤ, pose.yaw = t k + 2 * trig.pi * n

/-- A yaw velocity within the limits, towards the remaining angle. -/
structure Steers (remaining vyaw : K) : Prop where
  bounded : -2 ≤ vyaw ∧ vyaw ≤ 2
  left : 0 < remaining ↔ 0 < vyaw
  right : remaining < 0 ↔ vyaw < 0

section Round
variable [IsStrictOrderedRing K]

/- Two readings of a heading that turned by `d`: their difference is `d` up to
full turns, and at most one full turn off. -/
theorem wrap_turn {pi a b d : K} (hpi : 0 < pi) (ha : |a| ≤ pi) (hb : |b| ≤ pi) (n : ℤ)
    (h : b - a = d + 2 * pi * n) (hd : |d| < pi) : wrap pi (b - a) = d := by
  obtain ⟨ha1, ha2⟩ := abs_le.mp ha
  obtain ⟨hb1, hb2⟩ := abs_le.mp hb
  obtain ⟨hd1, hd2⟩ := abs_lt.mp hd
  have hlow : -2 < n := by
    by_contra hn
    have hn2 : (n : K) ≤ -2 := by exact_mod_cast not_lt.mp hn
    have hm : pi * n ≤ pi * -2 := mul_le_mul_of_nonneg_left hn2 hpi.le
    linarith
  have hhigh : n < 2 := by
    by_contra hn
    have hn2 : (2 : K) ≤ n := by exact_mod_cast not_lt.mp hn
    have hm : pi * 2 ≤ pi * n := mul_le_mul_of_nonneg_left hn2 hpi.le
    linarith
  have hcases : n = -1 ∨ n = 0 ∨ n = 1 := by omega
  unfold wrap
  rcases hcases with rfl | rfl | rfl
  · have he : b - a = d - 2 * pi := by rw [h]; push_cast; ring
    rw [he, if_neg (by linarith), if_pos (by linarith)]
    ring
  · have he : b - a = d := by rw [h]; push_cast; ring
    rw [he, if_neg (by linarith), if_neg (by linarith)]
  · have he : b - a = d + 2 * pi := by rw [h]; push_cast; ring
    rw [he, if_pos (by linarith)]
    ring

/- A limited output has the sign of its input. -/
theorem clamp_sign {k limit : K} (hk : 0 < k) (hl : 0 < limit) (r : K) :
    (0 < r ↔ 0 < clamp (k * r) (-limit) limit) ∧ (r < 0 ↔ clamp (k * r) (-limit) limit < 0) := by
  have hpos : 0 < r ↔ 0 < k * r := (mul_pos_iff_of_pos_left hk).symm
  have hneg : r < 0 ↔ k * r < 0 := by
    constructor
    · exact mul_neg_of_pos_of_neg hk
    · exact fun h => neg_of_mul_neg_right h hk.le
  rw [hpos, hneg]
  unfold clamp
  split
  · constructor <;> constructor <;> intro h <;> linarith
  · split
    · constructor <;> constructor <;> intro h <;> linarith
    · exact ⟨Iff.rfl, Iff.rfl⟩

theorem clamp_steers {r : K} : Steers r (clamp (10 * r) (-2) 2) := by
  have hten : (0 : K) < 10 := by norm_num
  obtain ⟨hpos, hneg⟩ := clamp_sign hten two_pos r
  refine ⟨?_, hpos, hneg⟩
  unfold clamp
  split
  · constructor <;> linarith
  · split <;> constructor <;> linarith

/- One round of the loop, for a heading that turned by `d` since the last. -/
theorem rotate_sample (trig : Trig K) (pids : Controllers K) (ht : pids.Tuned)
    (deltaRad acc : K) {prevYaw d : K} {pose : Pose K}
    (hw : wrap trig.pi (pose.yaw - prevYaw) = d) :
    (Task.rotate deltaRad acc prevYaw).sample trig pids pose =
      if |deltaRad - (acc + d)| < controlErrorYaw then
        (.rotate deltaRad (acc + d) pose.yaw, pids, none)
      else (.rotate deltaRad (acc + d) pose.yaw,
        {pids with yaw := (pids.yaw.update (deltaRad - (acc + d))).1},
        some ⟨0, 0, clamp (10 * (deltaRad - (acc + d))) (-2) 2⟩) := by
  simp only [Task.sample, hw, ht.yaw.output (show (0 : K) < 2 by norm_num)]

end Round

/-! ### Along a call -/

/- `accumulated_angle` is the turn since the first reading. -/
def turnAccount (t : ℕ → K) (deltaRad : K) : Account K where
  task poses task := ∃ last, poses.getLast? = some last ∧
    task = .rotate deltaRad (t (poses.length - 1) - t 0) last.yaw
  velocity poses v := ∃ vyaw, v = ⟨0, 0, vyaw⟩ ∧
    Steers (deltaRad - (t (poses.length - 1) - t 0)) vyaw
  success poses := |deltaRad - (t (poses.length - 1) - t 0)| < controlErrorYaw

section Rounds
variable [IsStrictOrderedRing K] {trig : Trig K} {t : ℕ → K} {pose : Pose K}

/- The reading that a round adds, against the last one. -/
theorem heads_turn {poses : List (Pose K)} {last : Pose K} (hh : Heads trig t (poses ++ [pose]))
    (hl : poses.getLast? = some last) :
    wrap trig.pi (pose.yaw - last.yaw) = t poses.length - t (poses.length - 1) := by
  have hlast : poses[poses.length - 1]? = some last := by rw [← List.getLast?_eq_getElem?, hl]
  have hpos : 0 < poses.length := by
    cases poses with
    | nil => simp at hl
    | cons p ps => simp
  obtain ⟨ha, na, hna⟩ := hh.yaw (poses.length - 1) last
    (by rw [List.getElem?_append_left (by omega)]; exact hlast)
  obtain ⟨hb, nb, hnb⟩ := hh.yaw poses.length pose (by simp)
  have hd := hh.turn (poses.length - 1)
  rw [Nat.sub_add_cancel hpos] at hd
  apply wrap_turn trig.pi_pos ha hb (nb - na) _ hd
  rw [hna, hnb]
  push_cast
  ring

theorem turn_kept (trig : Trig K) (t : ℕ → K) (deltaRad timeout : K) :
    (turnAccount t deltaRad).Kept trig (.rotate deltaRad timeout) (Heads trig t) where
  earlier poses pose hh := by
    constructor
    · exact hh.turn
    · intro k pose' hk
      have hlt := (List.getElem?_eq_some_iff.mp hk).1
      exact hh.yaw k pose' (by rw [List.getElem?_append_left hlt]; exact hk)
  start pose _ := ⟨pose, rfl, by simp [Request.start]⟩
  round poses task pids pose ht hne htask hh := by
    obtain ⟨last, hlast, rfl⟩ := htask
    have hlen : (poses ++ [pose]).length - 1 = poses.length := by simp
    have hturn := heads_turn hh hlast
    have hacc : t (poses.length - 1) - t 0 + (t poses.length - t (poses.length - 1)) =
        t poses.length - t 0 := by ring
    have hround := rotate_sample trig pids ht deltaRad (t (poses.length - 1) - t 0) hturn
    rw [hacc] at hround
    simp only [turnAccount, hlen, hround]
    by_cases hin : |deltaRad - (t poses.length - t 0)| < controlErrorYaw
    · simp [hin]
    · simp only [if_neg hin]
      constructor
      · exact ⟨pose, by simp, rfl⟩
      · constructor
        · intro v hv
          cases hv
          exact ⟨_, rfl, clamp_steers⟩
        · simp

end Rounds

namespace Server
variable [DecidableEq ι] [IsStrictOrderedRing K]

/-- `rotate` measures the true turn, in every schedule and at every moment of
it: once the initial yaw is read, `accumulated_angle` is the turn from the first
to the last reading; a velocity is sent within [-2, 2] and with the sign of the
angle that remains (the zero velocity of a cancellation apart); and SUCCESS is
returned only within the tolerance. -/
theorem rotate_true_turn (trig : Trig K) (acts : List (Act ι K)) (i : ι) (m : Motion K)
    (deltaRad timeout : K) (t : ℕ → K) (hm : (after trig acts).motion i = some m)
    (hreq : m.request = .rotate deltaRad timeout)
    (hh : Heads trig t (samples (watch trig i (init trig) acts))) :
    (samples (watch trig i (init trig) acts) ≠ [] → ∃ prevYaw, m.task = .rotate deltaRad
      (t ((samples (watch trig i (init trig) acts)).length - 1) - t 0) prevYaw) ∧
    ∀ before e rest, watch trig i (init trig) acts = before ++ .did e :: rest →
      (∀ v, e = .move v → (v = .zero ∧ before.getLast? = some (.did (.polled true))) ∨
        ∃ vyaw, v = ⟨0, 0, vyaw⟩ ∧
          Steers (deltaRad - (t ((samples before).length - 1) - t 0)) vyaw) ∧
      ∀ text, e = .returned (.success, text) →
        |deltaRad - (t ((samples before).length - 1) - t 0)| < controlErrorYaw := by
  have hholds := account_holds (turn_kept trig t deltaRad timeout) acts i m hm hreq hh
  constructor
  · intro hne
    obtain ⟨-, pose, -, htask⟩ := hholds.task (fun hpc => hne (hholds.unread (.inl hpc)))
      (fun hpc => hne (hholds.unread (.inr hpc)))
    exact ⟨pose.yaw, htask⟩
  · intro before e rest he
    have hexplains := hholds.past before e rest he
    exact ⟨hexplains.move, hexplains.success⟩

/- A turn by one radian that starts at yaw 3 and passes the half turn: the
second reading is -3. -/
def acrossPi : List (Act Unit ℚ) :=
  [.call () (.rotate 1 8), .run () 0 ⟨0, 0, 0⟩, .run () 0 ⟨0, 0, 3⟩, .run () 0 ⟨0, 0, 0⟩,
    .run () 0 ⟨0, 0, 0⟩, .run () 0 ⟨0, 0, 0⟩, .run () 0 ⟨0, 0, -3⟩, .run () 0 ⟨0, 0, 0⟩]

def headingsAcrossPi (k : ℕ) : ℚ := if k = 0 then 3 else 2 * rationalTrig.pi - 3

theorem rotate_true_turn_across_pi :
    (after rationalTrig acrossPi).log = [.call (), .motion () .reset, .motion () (.polled false),
      .motion () (.move ⟨0, 0, 2⟩)] ∧
    ∀ m, (after rationalTrig acrossPi).motion () = some m →
      ∃ prevYaw, m.task = .rotate 1 (2 * rationalTrig.pi - 6) prevYaw := by
  refine ⟨by decide +kernel, fun m hm => ?_⟩
  have hs : samples (watch rationalTrig () (init rationalTrig) acrossPi) =
      [⟨0, 0, 3⟩, ⟨0, 0, -3⟩] := by decide +kernel
  have hreq : ((after rationalTrig acrossPi).motion ()).map Motion.request =
      some (.rotate 1 8) := by decide +kernel
  rw [hm, Option.map_some, Option.some.injEq] at hreq
  have hpi : rationalTrig.pi = 884279719003555 / 281474976710656 := rfl
  have hh : Heads rationalTrig headingsAcrossPi
      (samples (watch rationalTrig () (init rationalTrig) acrossPi)) := by
    rw [hs]
    constructor
    · intro k
      cases k with
      | zero => norm_num [headingsAcrossPi, hpi, abs_lt]
      | succ k => simp [headingsAcrossPi, hpi]
    · intro k pose hk
      rcases k with _ | _ | k
      · cases hk
        exact ⟨by norm_num [hpi, abs_le], 0, by norm_num [headingsAcrossPi]⟩
      · cases hk
        refine ⟨by norm_num [hpi, abs_le], -1, ?_⟩
        norm_num [headingsAcrossPi]
        ring
      · simp at hk
  obtain ⟨prevYaw, htask⟩ := (rotate_true_turn rationalTrig acrossPi () m 1 8 headingsAcrossPi hm
    hreq hh).1 (by simp [hs])
  refine ⟨prevYaw, ?_⟩
  rw [htask, hs]
  norm_num [headingsAcrossPi]
  ring

end Server

end TypegoSdk.Control
