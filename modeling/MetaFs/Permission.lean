import MetaFs.Error
import MetaFs.Numeral
/-!
Permission bits in text, as the mask for new directories is configured.
-/

namespace MetaFs.Permission

/-- An octal number between blanks. What follows a blank after it counts for nothing, blanks alone
are zero, and symbolic notation is refused. -/
def parse (text : String) : Except Error UInt32 :=
  let chars := text.toList
  if !chars.all (fun c => c = ' ' || ('0' ≤ c && c ≤ '7')) then
    .error ⟨.opnotsupp,
      s!"parse_permission({text}): can't parse non-octal permissions (yet)", none⟩
  else
    let digits := (chars.dropWhile (· = ' ')).takeWhile (· ≠ ' ')
    let value := (Numeral.continue? 8 0 digits).getD 0
    if value < UInt32.size then .ok (UInt32.ofNat value)
    else .error ⟨.inval,
      s!"parse_permission({text}): failed to parse this octal string: {overflow}", none⟩
where
  overflow : String := "number too large to fit in target type"

end MetaFs.Permission
