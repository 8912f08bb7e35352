/-!
# Files

What a path or the standard input has to offer.  The rest of the library does not read
files but is given them, and with them what the system says of those that cannot be read.

## Main definitions

* `File` — what is found where a file is looked for.
* `File.text` — the text of a file, or why there is none.
-/

namespace ToneScript

/-- What is found where a file is looked for. -/
inductive File where
  /-- There is nothing, for this reason. -/
  | missing (message : String := "No such file or directory (os error 2)")
  /-- There is something that cannot be read, such as a directory, for this reason. -/
  | unreadable (message : String := "Is a directory (os error 21)")
  /-- There is a file with these bytes. -/
  | content (bytes : ByteArray)

namespace File

/-- A file that holds a text. -/
def ofText (text : String) : File := .content text.toUTF8

/-- The text of a file, or the message of the attempt to read it. -/
def text : File → Except String String
  | missing message | unreadable message => .error message
  | content bytes => match String.fromUTF8? bytes with
    | some s => .ok s
    | none => .error "stream did not contain valid UTF-8"

@[simp] theorem text_ofText (s : String) : (ofText s).text = .ok s := by
  simp [ofText, text, String.fromUTF8?, s.isValidUTF8, String.fromUTF8]

end File

end ToneScript
