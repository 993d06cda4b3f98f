import TypegoSdk.Audio.Upload
import TypegoSdk.Crow.Multipart

/-!
# The form of an upload (example/go2/typego_audio_interface.cpp)

`/upload_play` takes the "audio" part of a multipart message. From the bytes of the
request to the request of `Audio.Upload`, for the forms that `dump` writes.
-/

namespace TypegoSdk.Audio
open TypegoSdk.Lib TypegoSdk.Crow.Multipart
open TypegoSdk.Crow (bytes)

/- A string of the C++ program, one character for each byte. -/
def text (bs : Bytes) : String := String.ofList (bs.map fun b => Char.ofNat b.toNat)

def disposition : Bytes := bytes "Content-Disposition"

section
variable (M : Multimap) {φ : Type}

/-- A part with one Content-Disposition header, which names it. -/
structure Field where
  part : Part
  header : Header
  only : part.headers.filter (fun h => stringEquals h.key disposition) = [header]
  name : Bytes
  named : header.params.lookup (bytes "name") = some name

theorem find_only {α : Type} {p : α → Bool} {l : List α} {x : α} (h : l.filter p = [x]) :
    M.find p l = some x := by
  cases hfind : M.find p l with
  | none =>
    have hnone := M.find_none hfind
    have hx : x ∈ l ∧ p x = true := by
      rw [← List.mem_filter, h]
      exact List.mem_singleton_self x
    exact absurd ((hnone x hx.1).symm.trans hx.2) Bool.false_ne_true
  | some y =>
    have hy : y ∈ l.filter p := List.mem_filter.mpr (M.find_some hfind)
    rw [h, List.mem_singleton] at hy
    rw [hy]

theorem Field.getHeaderObject (f : Field) : f.part.getHeaderObject M disposition = f.header := by
  rw [Part.getHeaderObject, find_only M f.only]
  rfl

def Field.upload (f : Field) : Upload :=
  ⟨f.part.body, (f.header.params.lookup (bytes "filename")).map text⟩

/- Part names are compared without case. -/
def Field.audio (f : Field) : Bool := stringEquals f.name (bytes "audio")

end

end TypegoSdk.Audio
