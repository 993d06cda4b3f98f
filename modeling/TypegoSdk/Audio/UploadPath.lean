import TypegoSdk.Audio.Upload
import TypegoSdk.Lib.Path

/-!
# Where an upload is saved

`/upload_play` puts the client's filename behind the upload directory and only
checks how it ends. The file that is opened is therefore the one that the
filename leads to from that directory.
-/

namespace TypegoSdk.Audio
open TypegoSdk.Lib

/- `/tmp/audio_uploads`. -/
def uploadDir : List (List Char) := ["tmp".toList, "audio_uploads".toList]

/- `open` takes the characters before the first NUL. -/
def opened (path : String) : List Char := path.toList.takeWhile (· ≠ '\x00')

/-- Strictly inside the upload directory. -/
def Inside (file : List (List Char)) : Prop := ∃ rest, rest ≠ [] ∧ file = uploadDir ++ rest

/-- The filename ends inside: it climbs out of no directory, or it comes back
down to those that it left. -/
inductive Returns (r : Route (List Char)) : Prop where
  | below (h : r.climb = 0) (hne : r.names ≠ [])
  | beside (rest : List (List Char)) (h : r.climb = 1) (hne : rest ≠ [])
      (hn : r.names = "audio_uploads".toList :: rest)
  | above (rest : List (List Char)) (h : 2 ≤ r.climb) (hne : rest ≠ [])
      (hn : r.names = "tmp".toList :: "audio_uploads".toList :: rest)

theorem inside_iff_returns (r : Route (List Char)) :
    Inside (uploadDir.take (uploadDir.length - r.climb) ++ r.names) ↔ Returns r := by
  have hlen : uploadDir.length = 2 := rfl
  rw [hlen]
  constructor
  · rintro ⟨rest, hne, hfile⟩
    by_cases h0 : r.climb = 0
    · have htake : uploadDir.take (2 - r.climb) = uploadDir := by
        rw [h0]
        rfl
      rw [htake] at hfile
      exact .below h0 (by rw [List.append_cancel_left hfile]; exact hne)
    · by_cases h1 : r.climb = 1
      · have htake : uploadDir.take (2 - r.climb) = ["tmp".toList] := by
          rw [h1]
          rfl
        rw [htake] at hfile
        exact .beside rest h1 hne (List.append_cancel_left hfile)
      · have h2 : 2 - r.climb = 0 := by omega
        rw [h2] at hfile
        exact .above rest (by omega) hne hfile
  · intro h
    cases h with
    | below h hne =>
      rw [h]
      exact ⟨r.names, hne, rfl⟩
    | beside rest h hne hn =>
      rw [h, hn]
      exact ⟨rest, hne, rfl⟩
    | above rest h hne hn =>
      have h2 : 2 - r.climb = 0 := by omega
      rw [h2, hn]
      exact ⟨rest, hne, rfl⟩

theorem opened_filepath (filename : String) :
    opened ("/tmp/audio_uploads/" ++ filename) =
      "/tmp/audio_uploads".toList ++ '/' :: opened filename := by
  have hplain : ∀ c ∈ "/tmp/audio_uploads/".toList, decide (c ≠ '\x00') = true := by simp
  have hslash : "/tmp/audio_uploads/".toList = "/tmp/audio_uploads".toList ++ ['/'] := by simp
  rw [opened, String.toList_append, List.takeWhile_append_of_pos hplain, hslash, List.append_assoc]
  rfl

namespace Handler
variable {φ : Type}

theorem arrive_resolved (resolve : String → φ) (u : Upload) :
    resolvePath (opened (arrive resolve u).filepath) =
      walk uploadDir (pathMoves (opened (arrive resolve u).filename)) := by
  have hpath : (arrive resolve u).filepath =
      "/tmp/audio_uploads/" ++ (arrive resolve u).filename := rfl
  have hdir : resolvePath "/tmp/audio_uploads".toList = uploadDir := by decide
  rw [hpath, opened_filepath, resolvePath_append, hdir]

/-- The path of an upload is inside the upload directory exactly when its filename,
followed from there, stays in it or returns to it. -/
theorem upload_inside_iff (resolve : String → φ) (u : Upload) :
    Inside (resolvePath (opened (arrive resolve u).filepath)) ↔
      Returns (route (pathMoves (opened (arrive resolve u).filename))) := by
  rw [arrive_resolved, walk_route]
  exact inside_iff_returns _

theorem upload_inside_song : (arrive id ⟨[0], some "song.wav"⟩).pc = .create ∧
    Inside (resolvePath (opened (arrive id ⟨[0], some "song.wav"⟩).filepath)) := by
  have hpc : (arrive id ⟨[0], some "song.wav"⟩).pc = .create := by decide
  have hroute : route (pathMoves (opened "song.wav")) = ⟨0, ["song.wav".toList]⟩ := by rfl
  refine ⟨hpc, (upload_inside_iff id ⟨[0], some "song.wav"⟩).mpr ?_⟩
  rw [show (arrive id ⟨[0], some "song.wav"⟩).filename = "song.wav" from rfl, hroute]
  exact .below rfl (by simp)

theorem upload_climbs_out : (arrive id ⟨[0], some "../../etc/x.wav"⟩).pc = .create ∧
    resolvePath (opened (arrive id ⟨[0], some "../../etc/x.wav"⟩).filepath) =
      ["etc".toList, "x.wav".toList] ∧
    ¬Inside (resolvePath (opened (arrive id ⟨[0], some "../../etc/x.wav"⟩).filepath)) := by
  have hfile : resolvePath (opened (arrive id ⟨[0], some "../../etc/x.wav"⟩).filepath) =
      ["etc".toList, "x.wav".toList] := by decide
  refine ⟨by decide, hfile, ?_⟩
  rintro ⟨rest, _, hrest⟩
  rw [hfile] at hrest
  have hhead : "etc".toList = "tmp".toList := (List.cons.inj hrest).1
  exact absurd hhead (by decide)

end Handler

end TypegoSdk.Audio
