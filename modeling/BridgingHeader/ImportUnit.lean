/-!
# Import units

A unit that imports nothing but the bridging header is compiled for a target. Once preprocessed, its
text may be put between marks that make its declarations nonnull by default.
-/

namespace BridgingHeader.ImportUnit

/-- The header that defines the marks unless another one is chosen. -/
def defaultUmbrella : String := "Foundation/Foundation.h"

/-- A unit that imports a header, whose path stands as given. -/
def importing (header : String) : String := s!"#import \"{header}\"\n"

/-- A source between the marks, after an import of the umbrella header that defines them. -/
def assumeNonnull (source umbrella : String) : String :=
  s!"#import <{umbrella}>\nNS_ASSUME_NONNULL_BEGIN\n{source}\nNS_ASSUME_NONNULL_END\n"

end BridgingHeader.ImportUnit
