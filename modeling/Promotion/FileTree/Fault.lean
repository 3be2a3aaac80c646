/-!
# `Promotion.FileTree.Fault`: why the file system refuses something
-/

set_option autoImplicit false

namespace Promotion

/-- Why an operation on files fails. -/
inductive Fault where
  | notFound
  | noDevice
  | busy
  | alreadyThere
  | notDirectory
  | isDirectory
  | nameTooLong
  | tooManyLinks
  | nulByte
  | notText
  deriving DecidableEq, Repr

/-- The reason as it is shown to the user. -/
def Fault.message : Fault → String
  | notFound => "No such file or directory (os error 2)"
  | noDevice => "No such device or address (os error 6)"
  | busy => "Device or resource busy (os error 16)"
  | alreadyThere => "File exists (os error 17)"
  | notDirectory => "Not a directory (os error 20)"
  | isDirectory => "Is a directory (os error 21)"
  | nameTooLong => "File name too long (os error 36)"
  | tooManyLinks => "Too many levels of symbolic links (os error 40)"
  | nulByte => "file name contained an unexpected NUL byte"
  | notText => "stream did not contain valid UTF-8"

end Promotion
